import Lox.Code.CompileError
import Lox.Code.Reader
import Lox.Value
import Std.Data.TreeMap

/-!
# Constants

Code begins with its constants, each written as a marker, its index, a tag and its content: eight
bytes for a number, text and a nul for a string. A `ConstantPool` collects them, each once.
-/

namespace Lox

inductive Constant where
  | number (x : Double)
  | string (s : String)
deriving DecidableEq

namespace Constant

def value : Constant → Value
  | number x => .number x
  | string s => .string s

/-- The first byte of every constant. -/
def marker : UInt8 := 0x40

/-- The byte that says what kind of constant follows. -/
def tag : Constant → UInt8
  | number _ => 0x64
  | string _ => 0x73

def payload : Constant → List UInt8
  | number x => toLittleEndian 8 x.bits.toNat
  | string s => s.toUTF8.data.toList ++ [0]

def encode (index : Nat) (c : Constant) : List UInt8 :=
  marker :: UInt8.ofNat index :: c.tag :: c.payload

/-- Whether the content can be told from the nul that ends it. -/
def encodable : Constant → Bool
  | number _ => true
  | string s => !s.toList.contains '\x00'

end Constant

/-- A constant with the index it was read with. -/
structure ConstantEntry where
  index : UInt8
  constant : Constant

/-- Reads a constant. Its first byte is passed over; whether it is the marker is for the caller to
see. -/
def ConstantEntry.read : Decoder ConstantEntry := do
  let _ ← Reader.byte
  let index ← Reader.byte
  let offset := (← get).offset
  let tag ← Reader.byte
  if tag = 0x64 then
    return { index, constant := .number (← Reader.double) }
  else if tag = 0x73 then
    return { index, constant := .string (← Reader.string) }
  else
    throw (.invalidConstantTag tag offset)

/-- The constants of a program, written in the order they were first asked for, and the index that
each has. -/
structure ConstantPool where
  bytes : Array UInt8 := #[]
  count : Nat := 0
  /-- The indices of the numbers, by their bits. -/
  numbers : Std.TreeMap UInt64 UInt8 := {}
  strings : Std.TreeMap String UInt8 := {}

namespace ConstantPool

/-- An index is one byte. -/
def capacity : Nat := 256

def index? (p : ConstantPool) : Constant → Option UInt8
  | .number x => p.numbers[x.bits]?
  | .string s => p.strings[s]?

def enter (p : ConstantPool) (index : UInt8) : Constant → ConstantPool
  | .number x => { p with numbers := p.numbers.insert x.bits index }
  | .string s => { p with strings := p.strings.insert s index }

/-- Takes the first index that is free. -/
def nextIndex (span : Span) : EStateM CompileError ConstantPool UInt8 := do
  let p ← get
  if capacity ≤ p.count then
    throw (.tooManyConstants span)
  else
    set { p with count := p.count + 1 }
    return UInt8.ofNat p.count

/-- The index of a constant, which is added if it is new. Numbers are told apart by their bits. -/
def intern (k : Constant) (span : Span) : EStateM CompileError ConstantPool UInt8 := do
  match (← get).index? k with
  | some i => return i
  | none =>
    if !k.encodable then
      throw (.nulInString span)
    else
      let i ← nextIndex span
      modify fun p => { p with bytes := p.bytes ++ k.encode i.toNat }.enter i k
      return i

end ConstantPool

end Lox
