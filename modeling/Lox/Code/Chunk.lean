import Lox.Code.Constant

/-!
# Chunks

A `Chunk` is a row of instructions under construction. Beside the code it keeps a `SpanTable`, which
says where in the source each instruction comes from. A forward jump is written before its target is
known and patched when the target is reached.
-/

namespace Lox

/-- The spans of instructions by the offset of their opcode, in ascending order. -/
structure SpanTable where
  entries : Array (Nat × Span) := #[]

namespace SpanTable

def record (t : SpanTable) (offset : Nat) (span : Span) : SpanTable :=
  { entries := t.entries.push (offset, span) }

/-- Where an entry for the offset can be, if it is among the `size` entries from `base` on: half of them
are left out until there is one. -/
def search (t : SpanTable) (offset base size : Nat) : Nat :=
  if size ≤ 1 then base
  else if t.entries[base + size / 2]?.any (offset < ·.1) then t.search offset base (size - size / 2)
  else t.search offset (base + size / 2) (size - size / 2)
termination_by size

def spanAt? (t : SpanTable) (offset : Nat) : Option Span :=
  (t.entries[t.search offset 0 t.entries.size]?.filter (·.1 == offset)).map (·.2)

/-- The table of the same code with `n` bytes put in front. -/
def shift (t : SpanTable) (n : Nat) : SpanTable :=
  { entries := t.entries.map fun (offset, span) => (offset + n, span) }

end SpanTable

structure Chunk where
  code : Array UInt8 := #[]
  spans : SpanTable := {}

namespace Chunk

def maxDistance : Nat := 0xffff

def offset (c : Chunk) : Nat :=
  c.code.size

def write (c : Chunk) (op : Opcode) (span : Span) : Chunk :=
  let start := c.offset
  { code := c.code.push op.toByte, spans := c.spans.record start span }

def writeByte (c : Chunk) (op : Opcode) (operand : UInt8) (span : Span) : Chunk :=
  let c := c.write op span
  { c with code := c.code.push operand }

/-- Writes an opcode and an operand of two bytes, the lower first. -/
def writeWord (c : Chunk) (op : Opcode) (operand : Nat) (span : Span) : Chunk :=
  let c := c.write op span
  { c with code := c.code ++ toLittleEndian 2 operand }

/-- Writes a forward jump whose distance is still open, and gives the offset of its operand. -/
def writeJump (c : Chunk) (op : Opcode) (span : Span) : Nat × Chunk :=
  let c := c.writeWord op maxDistance span
  (c.offset - 2, c)

/-- Lets the jump with its operand at `operand` land behind all that is written so far. The distance
counts from behind the operand. -/
def patchJump (operand : Nat) : EStateM CompileError Chunk Unit := do
  let c ← get
  let distance := c.offset - operand - 2
  if maxDistance < distance then
    throw (.jumpTooLarge ((c.spans.spanAt? (operand - 1)).getD {}))
  else
    let low := UInt8.ofNat distance
    let high := UInt8.ofNat (distance / 256)
    set { c with code := (c.code.setIfInBounds operand low).setIfInBounds (operand + 1) high }

/-- Writes a jump back to `start`. The distance counts from behind the operand. -/
def writeLoop (start : Nat) (span : Span) : EStateM CompileError Chunk Unit := do
  let c ← get
  let distance : Int := start - (c.offset + 3 : Nat)
  if distance < -0x8000 ∨ 0x8000 ≤ distance then
    throw (.jumpTooLarge span)
  else
    set (c.writeWord .jumpSigned (distance % 0x10000).toNat span)

end Chunk

end Lox
