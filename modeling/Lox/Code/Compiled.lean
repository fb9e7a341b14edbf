import Lox.Code.Chunk
import Lox.Program

/-!
# Compilation

`compile` turns a program into code for the machine. Globals are named by the index of a string
constant; a local is the value that its declaration leaves on the stack, and is named by its distance
from the bottom. Functions, calls and returns become a single trap.
-/

namespace Lox

structure Local where
  name : String
  /-- How deep its block is nested; none while its initializer is being compiled. -/
  depth : Option Nat := none
deriving DecidableEq

namespace Local

/-- Whether the variable belongs to a block nested deeper than `depth`. -/
def isDeeper (depth : Nat) (v : Local) : Bool :=
  v.depth.any (depth < ·)

def isOuter (depth : Nat) (v : Local) : Bool :=
  v.depth.any (· < depth)

/-- The innermost variable of a name, with its slot. The list has the innermost first, and the slot is
the number of variables declared before. -/
def lookup (name : String) : List Local → Option (Nat × Local)
  | [] => none
  | v :: older => if v.name = name then some (older.length, v) else lookup name older

end Local

structure Compiler where
  pool : ConstantPool := {}
  chunk : Chunk := {}
  /-- The local variables in scope, the innermost first. -/
  locals : List Local := []
  depth : Nat := 0

/-- Compiles something, or stops at the first error. -/
abbrev Compilation := EStateM CompileError Compiler

namespace Compilation

/-- A slot is one byte. -/
def maxLocals : Nat := 256

def emit (op : Opcode) (span : Span) : Compilation Unit :=
  modify fun c => { c with chunk := c.chunk.write op span }

def emitByte (op : Opcode) (operand : UInt8) (span : Span) : Compilation Unit :=
  modify fun c => { c with chunk := c.chunk.writeByte op operand span }

/-- Writes a forward jump and gives the offset of its operand. -/
def emitJump (op : Opcode) (span : Span) : Compilation Nat :=
  modifyGet fun c =>
    let (operand, chunk) := c.chunk.writeJump op span
    (operand, { c with chunk })

def onChunk {α : Type} (act : EStateM CompileError Chunk α) : Compilation α := fun c =>
  match act c.chunk with
  | .ok a chunk => .ok a { c with chunk }
  | .error e chunk => .error e { c with chunk }

def patchJump (operand : Nat) : Compilation Unit :=
  onChunk (Chunk.patchJump operand)

def emitLoop (start : Nat) (span : Span) : Compilation Unit :=
  onChunk (Chunk.writeLoop start span)

def constant (k : Constant) (span : Span) : Compilation UInt8 := fun c =>
  match ConstantPool.intern k span c.pool with
  | .ok i pool => .ok i { c with pool }
  | .error e pool => .error e { c with pool }

/-- The slot of a local variable, or `none` if the name is that of a global. A variable cannot be used
in its own initializer, even if there is another of its name outside. -/
def slot? (name : String) (span : Span) : Compilation (Option UInt8) := do
  match Local.lookup name (← get).locals with
  | none => return none
  | some (slot, v) =>
    if v.depth.isNone then throw (.selfReference name span) else return some (UInt8.ofNat slot)

def access (local_ global : Opcode) (name : String) (span : Span) : Compilation Unit := do
  match ← slot? name span with
  | some slot => emitByte local_ slot span
  | none => emitByte global (← constant (.string name) span) span

/-- Declares a local variable, which can be used once `ready` is called. A block cannot declare a name
twice. -/
def declare (name : String) (span : Span) : Compilation Unit := do
  let c ← get
  if (c.locals.takeWhile (!·.isOuter c.depth)).any (·.name = name) then
    throw (.duplicateLocal name span)
  else if maxLocals ≤ c.locals.length then
    throw (.tooManyLocals span)
  else
    set { c with locals := { name } :: c.locals }

/-- Ends the initializer of the innermost variable. -/
def ready : Compilation Unit :=
  modify fun c =>
    match c.locals with
    | [] => c
    | v :: older => { c with locals := { v with depth := some c.depth } :: older }

def openScope : Compilation Unit :=
  modify fun c => { c with depth := c.depth + 1 }

def emitPops (span : Span) : Nat → Compilation Unit
  | 0 => return
  | n + 1 => do
    emit .pop span
    emitPops span n

/-- Closes a block and drops its variables. -/
def closeScope (span : Span) : Compilation Unit := do
  let c ← get
  let depth := c.depth - 1
  let gone := (c.locals.takeWhile (·.isDeeper depth)).length
  emitPops span gone
  modify fun c => { c with depth, locals := c.locals.drop gone }

def literal (span : Span) : Value → Compilation Unit
  | .nil => emit .pushNil span
  | .boolean true => emit .pushTrue span
  | .boolean false => emit .pushFalse span
  | .number x => do emitByte .pushConstant (← constant (.number x) span) span
  | .string s => do emitByte .pushConstant (← constant (.string s) span) span

/-- The jump over the right operand: taken when the left operand decides. -/
def shortCircuit : LogicalOp → Opcode
  | .and => .jumpIfFalse
  | .or => .jumpIfTrue

/-- Compiles an expression. Its code leaves one value on the stack. -/
def expression : Expr → Compilation Unit
  | .literal v s => literal s v
  | .var name s => access .getLocal .getGlobal name s
  | .assign name value s => do
    expression value
    access .setLocal .setGlobal name s
  | .unary op operand s => do
    expression operand
    emit (.unary op) s
  | .binary op left right s => do
    expression left
    expression right
    emit (.binary op) s
  | .logical op left right s => do
    expression left
    let past ← emitJump (shortCircuit op) s
    emit .pop s
    expression right
    patchJump past
  | .grouping inner _ => expression inner
  | .call _ _ s => emit .trap s

def initial (span : Span) : Option Expr → Compilation Unit
  | none => emit .pushNil span
  | some e => expression e

/-- Compiles the declaration of a variable. The name of a global is only looked at behind its
initializer. -/
def variableDeclaration (name : String) (value : Option Expr) (span : Span) : Compilation Unit := do
  if 0 < (← get).depth then
    declare name span
    initial span value
    ready
  else
    initial span value
    emitByte .defineGlobal (← constant (.string name) span) span

mutual

/-- Compiles a statement. Its code leaves the stack as it was, but for the variable it may declare. -/
def statement : Stmt → Compilation Unit
  | .expression e s => do
    expression e
    emit .pop s
  | .print e s => do
    expression e
    emit .print s
  | .var name value s => variableDeclaration name value s
  | .block body s => do
    openScope
    statements body
    closeScope s
  | .ifElse condition thenBranch elseBranch s => do
    expression condition
    let pastThen ← emitJump .jumpIfFalse s
    emit .pop s
    statement thenBranch
    let pastElse ← emitJump .jump s
    patchJump pastThen
    emit .pop s
    alternative elseBranch
    patchJump pastElse
  | .whileLoop condition body s => do
    let start := (← get).chunk.offset
    expression condition
    let past ← emitJump .jumpIfFalse s
    emit .pop s
    statement body
    emitLoop start s
    patchJump past
    emit .pop s
  | .function _ _ _ s => emit .trap s
  | .returns _ s => emit .trap s

def alternative : Option Stmt → Compilation Unit
  | none => return
  | some s => statement s

def statements : List Stmt → Compilation Unit
  | [] => return
  | s :: rest => do
    statement s
    statements rest

end

end Compilation

/-- A compiled program: its constants and its instructions. -/
structure Compiled where
  pool : ConstantPool
  chunk : Chunk

namespace Compiled

/-- The code: constants, then instructions. -/
def code (p : Compiled) : Array UInt8 :=
  p.pool.bytes ++ p.chunk.code

def start (p : Compiled) : Nat :=
  p.pool.bytes.size

/-- The spans of the instructions by their offset in the code. -/
def spans (p : Compiled) : SpanTable :=
  p.chunk.spans.shift p.start

end Compiled

def compile (p : Program) : Except CompileError Compiled :=
  match Compilation.statements p {} with
  | .ok _ c => .ok { pool := c.pool, chunk := c.chunk }
  | .error e _ => .error e

end Lox
