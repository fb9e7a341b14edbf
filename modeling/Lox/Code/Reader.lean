import Lox.Code.Fault
import Lox.Code.Opcode
import Lox.Number

/-!
# Reading code

A `Reader` stands at an offset in a row of bytes. A `Decoder` reads from there; it checks that the
bytes exist before it moves, and when it faults the reader stays where the last complete read left it.
-/

namespace Lox

/-- Code with the offset of the next byte to read. -/
structure Reader where
  code : Array UInt8
  offset : Nat := 0

abbrev Decoder := EStateM Fault Reader

/-- The number that bytes spell, the lowest first. -/
def littleEndian : List UInt8 → Nat
  | [] => 0
  | b :: bs => b.toNat + 256 * littleEndian bs

/-- The first `width` bytes of a number, the lowest first. -/
def toLittleEndian : Nat → Nat → List UInt8
  | 0, _ => []
  | width + 1, n => UInt8.ofNat n :: toLittleEndian width (n / 256)

namespace Reader

def atEnd (r : Reader) : Bool :=
  r.code.size ≤ r.offset

def peek? (r : Reader) : Option UInt8 :=
  r.code[r.offset]?

/-- Moves behind `width` bytes and gives `a`, which they spell. -/
def pass {α : Type} (width : Nat) (a : α) : Decoder α := fun r =>
  .ok a { r with offset := r.offset + width }

def short {α : Type} (width : Nat) : Decoder α := fun r =>
  .error (.outOfBounds r.offset width r.code.size) r

def byte : Decoder UInt8 := fun r =>
  match r.code[r.offset]? with
  | some b => pass 1 b r
  | none => short 1 r

def word : Decoder Nat := fun r =>
  match r.code[r.offset]?, r.code[r.offset + 1]? with
  | some low, some high => pass 2 (littleEndian [low, high]) r
  | _, _ => short 2 r

/-- The number that a word stands for in two's complement. -/
def signed (word : Nat) : Int :=
  if word < 0x8000 then word else word - 0x10000

def signedWord : Decoder Int := do
  return signed (← word)

def double : Decoder Double := fun r =>
  if r.offset + 8 ≤ r.code.size then
    let bytes := (r.code.extract r.offset (r.offset + 8)).toList
    pass 8 ⟨UInt64.ofNat (littleEndian bytes)⟩ r
  else
    short 8 r

/-- Reads text up to a nul, and the nul. -/
def string : Decoder String := fun r =>
  let rest := (r.code.extract r.offset r.code.size).toList
  let content := rest.takeWhile (· != 0)
  if content.length = rest.length then
    .error (.unterminatedString r.offset) r
  else
    match String.fromUTF8? (ByteArray.mk content.toArray) with
    | none => .error (.invalidUtf8 r.offset) r
    | some s => pass (content.length + 1) s r

/-- Reads an opcode. A byte that stands for none has been read all the same. -/
def opcode : Decoder Opcode := do
  let offset := (← get).offset
  let b ← byte
  match Opcode.ofByte? b with
  | some op => return op
  | none => throw (.invalidOpcode b offset)

/-- Moves to an offset, which may be the end of the code. -/
def seek (target : Int) : Decoder Unit := fun r =>
  if 0 ≤ target ∧ target ≤ r.code.size then
    .ok () { r with offset := target.toNat }
  else
    .error (.outOfBounds target.toNat 0 r.code.size) r

def jump (distance : Int) : Decoder Unit := do
  seek ((← get).offset + distance)

end Reader

end Lox
