import Std.Data.TreeMap
import Lox.Code.Chunk
import Lox.Machine.Sink

/-!
# The machine

A stack machine. `Machine.step` executes one instruction, `Machine.run` goes on to the end of the
code, and `Machine.execute` starts from fresh code: it loads the constants and runs. Globals outlive
an execution; so does the stack, until the next one starts.
-/

namespace Lox

abbrev Globals := Std.TreeMap String Value

inductive RuntimeError where
  | unsupportedBinary (op : BinaryOp) (left right : ValueType) (span : Span)
  | unsupportedUnary (op : UnaryOp) (operand : ValueType) (span : Span)
  | divisionByZero (span : Span)
  | undefinedGlobal (name : String) (span : Span)
  | output (e : SinkError)
deriving DecidableEq, Repr

namespace RuntimeError

def span? : RuntimeError → Option Span
  | unsupportedBinary _ _ _ s => some s
  | unsupportedUnary _ _ s => some s
  | divisionByZero s => some s
  | undefinedGlobal _ s => some s
  | output _ => none

def message : RuntimeError → String
  | unsupportedBinary op left right s =>
    s.report s!"unsupported binary operation {op.description} with types '{left.name}' & '{right.name}'"
  | unsupportedUnary op operand s =>
    s.report s!"unsupported unary operation {op.description} with type '{operand.name}'"
  | divisionByZero s => s.report "divide by 0"
  | undefinedGlobal name s => s.report s!"Undefined global '{name}'"
  | output e => s!"Error: failed to write output: {e.reason}"

end RuntimeError

/-- What stops the machine before the end of the code. -/
inductive Failure where
  | runtime (e : RuntimeError)
  | fault (f : Fault)
deriving DecidableEq, Repr

/-- How far a computation on a state got with the steps it was given. -/
inductive Progress (ε σ : Type) where
  /-- It is not over; the state is that of the moment. -/
  | running (s : σ)
  | ended (r : EStateM.Result ε σ Unit)

structure Machine where
  reader : Reader := { code := #[] }
  /-- Where the instructions come from, as far as it is known. -/
  spans : SpanTable := {}
  /-- The values computed with, the topmost first. -/
  stack : List Value := []
  constants : Array Value := #[]
  globals : Globals := {}
  sink : Sink := {}

/-- Something the machine does. When it fails, what was done up to there stays done. -/
abbrev Execution := EStateM Failure Machine

namespace Execution

def decode {α : Type} (d : Decoder α) : Execution α := fun m =>
  match d m.reader with
  | .ok a r => .ok a { m with reader := r }
  | .error f r => .error (.fault f) { m with reader := r }

def fault {α : Type} (f : Fault) : Execution α :=
  throw (.fault f)

/-- Stops with an error at the instruction that starts at the offset. -/
def raise {α : Type} (offset : Nat) (e : Span → RuntimeError) : Execution α := do
  throw (.runtime (e (((← get).spans.spanAt? offset).getD {})))

def push (v : Value) : Execution Unit :=
  modify fun m => { m with stack := v :: m.stack }

def pop : Execution Value := fun m =>
  match m.stack with
  | [] => .error (.fault .stackUnderflow) m
  | v :: rest => .ok v { m with stack := rest }

def top : Execution Value := do
  match (← get).stack with
  | [] => fault .stackUnderflow
  | v :: _ => return v

/-- Reads an index and gives the constant it names. -/
def constant : Execution (UInt8 × Value) := do
  let i ← decode Reader.byte
  match (← get).constants[i.toNat]? with
  | some v => return (i, v)
  | none => fault (.invalidConstantIndex i)

def globalName : Execution String := do
  match ← constant with
  | (_, .string name) => return name
  | (i, _) => fault (.invalidGlobalName i)

/-- The place of a slot in the stack: slots count from the bottom. -/
def place (slot : UInt8) : Execution Nat := do
  let depth := (← get).stack.length
  if slot.toNat < depth then return depth - 1 - slot.toNat
  else fault (.invalidLocalSlot slot depth)

def printLine (text : String) : Execution Unit := fun m =>
  match Sink.write (text ++ "\n") m.sink with
  | .ok _ sink => .ok () { m with sink }
  | .error e sink => .error (.runtime (.output e)) { m with sink }

/-- Makes sure that all output has got to where it goes. -/
def flush : Execution Unit := fun m =>
  match Sink.flush m.sink with
  | .ok _ sink => .ok () { m with sink }
  | .error e sink => .error (.runtime (.output e)) { m with sink }

/-- Reads a distance and jumps, if the topmost value holds just when it should. -/
def jumpWhen (holds : Bool) : Execution Unit := do
  let distance ← decode Reader.word
  if (← top).truthy = holds then
    decode (Reader.jump distance)

/-- Executes the instruction whose opcode, at the given offset, has just been read. -/
def perform (offset : Nat) : Opcode → Execution Unit
  | .nop => return
  | .binary op => do
    let b ← pop
    let a ← pop
    match op.apply a b with
    | .ok v => push v
    | .error .divisionByZero => raise offset .divisionByZero
    | .error .unsupported => raise offset (.unsupportedBinary op a.type b.type)
  | .unary op => do
    let v ← pop
    match op.apply v with
    | .ok r => push r
    | .error _ => raise offset (.unsupportedUnary op v.type)
  | .pushConstant => do
    let (_, v) ← constant
    push v
  | .pushNil => push .nil
  | .pushTrue => push (.boolean true)
  | .pushFalse => push (.boolean false)
  | .pop => do
    let _ ← pop
  | .print => do
    let v ← pop
    printLine v.text
  | .defineGlobal => do
    let name ← globalName
    let v ← pop
    modify fun m => { m with globals := m.globals.insert name v }
  | .setGlobal => do
    let name ← globalName
    let v ← top
    if (← get).globals.contains name then
      modify fun m => { m with globals := m.globals.insert name v }
    else
      raise offset (.undefinedGlobal name)
  | .getGlobal => do
    let name ← globalName
    match (← get).globals[name]? with
    | some v => push v
    | none => raise offset (.undefinedGlobal name)
  | .setLocal => do
    let slot ← decode Reader.byte
    let v ← top
    let i ← place slot
    modify fun m => { m with stack := m.stack.set i v }
  | .getLocal => do
    let slot ← decode Reader.byte
    let i ← place slot
    push ((← get).stack.getD i .nil)
  | .jump => do
    let distance ← decode Reader.word
    decode (Reader.jump distance)
  | .jumpIfFalse => jumpWhen false
  | .jumpIfTrue => jumpWhen true
  | .jumpSigned => do
    let distance ← decode Reader.signedWord
    decode (Reader.jump distance)
  | .trap => fault (.trap offset)

/-- Loads the constants that the code begins with, at most `n`. -/
def loadConstants : Nat → Execution Unit
  | 0 => return
  | n + 1 => do
    if (← get).reader.peek? == some Constant.marker then
      let e ← decode ConstantEntry.read
      let expected := (← get).constants.size
      if e.index.toNat = expected then
        modify fun m => { m with constants := m.constants.push e.constant.value }
        loadConstants n
      else
        fault (.constantIndexMismatch expected e.index)

end Execution

namespace Machine

def step : Execution Unit := do
  let offset := (← get).reader.offset
  let op ← Execution.decode Reader.opcode
  Execution.perform offset op

/-- Executes instructions to the end of the code, `fuel` of them at most. -/
def run : Nat → Machine → Progress Failure Machine
  | 0, m => .running m
  | fuel + 1, m =>
    if m.reader.atEnd then .ended (Execution.flush m)
    else
      match step m with
      | .ok _ m => run fuel m
      | .error e m => .ended (.error e m)

def start (m : Machine) (code : Array UInt8) (spans : SpanTable) : Machine :=
  { m with reader := { code }, spans, stack := [], constants := #[] }

/-- Starts from fresh code and loads its constants. Each of them takes at least one byte. -/
def load (code : Array UInt8) (spans : SpanTable) : Execution Unit := do
  modify (·.start code spans)
  Execution.loadConstants code.size

/-- Executes code, `fuel` instructions at most. Errors are located by the table of spans. -/
def execute (fuel : Nat) (code : Array UInt8) (spans : SpanTable) (m : Machine) :
    Progress Failure Machine :=
  match load code spans m with
  | .ok _ m => run fuel m
  | .error e m => .ended (.error e m)

end Machine

end Lox
