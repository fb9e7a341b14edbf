/-!
# Faults

What is wrong with code that cannot be decoded or executed. Code compiled from a program has no fault
but the trap.
-/

namespace Lox

/-- A byte as two hexadecimal digits. -/
def hexByte (b : UInt8) : String :=
  String.ofList [Nat.digitChar (b.toNat / 16), Nat.digitChar (b.toNat % 16)]

/-- Why code could not be decoded or executed. -/
inductive Fault where
  | trap (offset : Nat)
  /-- There are no `width` bytes at the offset. -/
  | outOfBounds (offset width length : Nat)
  | invalidOpcode (byte : UInt8) (offset : Nat)
  | invalidConstantTag (tag : UInt8) (offset : Nat)
  /-- Constants are numbered in the order they stand in. -/
  | constantIndexMismatch (expected : Nat) (found : UInt8)
  | invalidConstantIndex (index : UInt8)
  | invalidGlobalName (index : UInt8)
  | invalidLocalSlot (slot : UInt8) (depth : Nat)
  | stackUnderflow
  | invalidUtf8 (offset : Nat)
  | unterminatedString (offset : Nat)
deriving DecidableEq, Repr

namespace Fault

def reason : Fault → String
  | trap offset => s!"trap instruction at offset {offset}"
  | outOfBounds offset width length =>
    s!"read of {width} byte(s) at offset {offset} past end of bytecode (length {length})"
  | invalidOpcode byte offset => s!"invalid opcode 0x{hexByte byte} at offset {offset}"
  | invalidConstantTag tag offset => s!"invalid constant tag 0x{hexByte tag} at offset {offset}"
  | constantIndexMismatch expected found =>
    s!"constant index {found.toNat} out of sequence (expected {expected})"
  | invalidConstantIndex index => s!"constant index {index.toNat} out of range"
  | invalidGlobalName index => s!"global name at constant {index.toNat} is not a string"
  | invalidLocalSlot slot depth => s!"local slot {slot.toNat} out of range (stack depth {depth})"
  | stackUnderflow => "operand stack underflow"
  | invalidUtf8 offset => s!"string constant at offset {offset} is not valid UTF-8"
  | unterminatedString offset => s!"string constant at offset {offset} has no terminator"

def message (f : Fault) : String :=
  s!"internal error: {f.reason}"

end Fault

end Lox
