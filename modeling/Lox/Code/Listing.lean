import Lox.Code.Constant

/-!
# Listings

Code as text, one constant or instruction a line.
-/

namespace Lox

/-- A listing under way: the code still to be listed and the lines so far. -/
structure Listing where
  reader : Reader
  text : String := ""

namespace Listing

/-- Lists something. When it faults, the text so far is kept. -/
abbrev Writer := EStateM Fault Listing

def decode {α : Type} (d : Decoder α) : Writer α := fun l =>
  match d l.reader with
  | .ok a r => .ok a { l with reader := r }
  | .error f r => .error f { l with reader := r }

def append (s : String) : Writer Unit :=
  modify fun l => { l with text := l.text ++ s }

/-- The line of a constant; strings stand in quotes, without escapes. -/
def constantLine (e : ConstantEntry) : String :=
  match e.constant with
  | .number x => s!"@{e.index.toNat}d {Number.text x}\n"
  | .string s => s!"@{e.index.toNat}s \"{s}\"\n"

def constant : Writer Unit := do
  append (constantLine (← decode ConstantEntry.read))

def operand : OperandForm → Decoder String
  | .none => return ""
  | .byte => do
    let b ← Reader.byte
    return s!" {b.toNat}"
  | .word => do
    let n ← Reader.word
    return s!" {n}"
  | .signedWord => do
    let n ← Reader.signedWord
    return s!" {n}"

/-- Lists an instruction. The mnemonic is written before the operand is read. -/
def instruction : Writer Unit := do
  let op ← decode Reader.opcode
  append op.mnemonic
  let text ← decode (operand op.form)
  append s!"{text}\n"

def constants : Nat → Writer Unit
  | 0 => return
  | n + 1 => do
    if (← get).reader.peek? == some Constant.marker then
      constant
      constants n

/-- Lists instructions up to the end of the code, at most `n`. -/
def instructions : Nat → Writer Unit
  | 0 => return
  | n + 1 => do
    if !(← get).reader.atEnd then
      instruction
      instructions n

/-- The listing of code: its constants, then its instructions. Each takes at least one byte. -/
def ofCode (code : Array UInt8) : Except Fault String :=
  let list : Writer Unit := do
    constants code.size
    instructions code.size
  match list { reader := { code } } with
  | .ok _ l => .ok l.text
  | .error f _ => .error f

end Listing

end Lox
