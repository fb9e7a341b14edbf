/-!
# Numbers as text

Numbers are IEEE doubles. A number is written with the fewest decimal digits that read back to the
same double, always positionally, never with an exponent.

* `Double` is a double by its bits;
* `Decimal.shortest` finds those digits in exact arithmetic;
* `Number.text` writes a number;
* `Number.read` reads the digits before and after a decimal point.
-/

namespace Lox

/-- A double, told from others by its bits: the two zeros differ, and so do those that are no numbers. -/
structure Double where
  bits : UInt64
deriving DecidableEq, Inhabited

namespace Double

def ofFloat (x : Float) : Double :=
  ⟨x.toBits⟩

def toFloat (x : Double) : Float :=
  .ofBits x.bits

/-- The least mantissa of a normal double: the unit of the exponent bits. -/
def leastMantissa : Nat := 0x10000000000000

/-- The sign, the eleven exponent bits and the 52 fraction bits. -/
def fields (x : Double) : Bool × Nat × Nat :=
  let exponent := x.bits.toNat / leastMantissa
  (0x800 ≤ exponent, exponent % 0x800, x.bits.toNat % leastMantissa)

def isNaN (x : Double) : Bool :=
  let (_, exponent, fraction) := x.fields
  exponent = 0x7ff && fraction ≠ 0

def neg (x : Double) : Double :=
  ⟨x.bits ^^^ 0x8000000000000000⟩

end Double

/-- The number `digits * 10 ^ exponent`. -/
structure Decimal where
  digits : Nat
  exponent : Int
deriving DecidableEq, Repr

namespace Decimal

/-- The double `mantissa * 2 ^ exponent` with the reals that round to it, all scaled by one common
denominator: those from `low` to `high`, the ends included only if `closed`. -/
structure Interval where
  low : Nat
  value : Nat
  high : Nat
  denominator : Nat
  closed : Bool

/-- The interval of `mantissa * 2 ^ exponent`. Its neighbours lie one unit away, except that below
the least mantissa of a binade (`narrow`) the lower neighbour lies half a unit away. -/
def Interval.ofBinary (mantissa : Nat) (exponent : Int) (narrow : Bool) : Interval :=
  let low := if narrow then 4 * mantissa - 1 else 4 * mantissa - 2
  let scale := Nat.pow 2 (exponent - 2).toNat
  { low := low * scale
    value := 4 * mantissa * scale
    high := (4 * mantissa + 2) * scale
    denominator := Nat.pow 2 (2 - exponent).toNat
    closed := mantissa % 2 = 0 }

def Interval.inUnitsOf (i : Interval) (exponent : Int) : Interval :=
  let up := Nat.pow 10 (-exponent).toNat
  { i with
    low := i.low * up
    value := i.value * up
    high := i.high * up
    denominator := i.denominator * Nat.pow 10 exponent.toNat }

def Interval.contains (i : Interval) (n : Nat) : Bool :=
  let scaled := n * i.denominator
  if i.closed then i.low ≤ scaled && scaled ≤ i.high else i.low < scaled && scaled < i.high

/-- The whole number next to the value, below or above, that lies in the interval; of two the
nearer, and of two equally near the one above. -/
def Interval.nearest? (i : Interval) : Option Nat :=
  let below := i.value / i.denominator
  match i.contains below, i.contains (below + 1) with
  | true, true =>
    some (if 2 * (i.value - below * i.denominator) < i.denominator then below else below + 1)
  | true, false => some below
  | false, true => some (below + 1)
  | false, false => none

/-- Tries the grids of `10 ^ exponent`, `10 ^ (exponent - 1)` and so on, and stops at the first that
has a point in the interval. -/
def Interval.coarsest (i : Interval) : Nat → Int → Decimal
  | 0, exponent => ⟨0, exponent⟩
  | tries + 1, exponent =>
    match (i.inUnitsOf exponent).nearest? with
    | some digits => ⟨digits, exponent⟩
    | none => i.coarsest tries (exponent - 1)

/-- A power of ten above `mantissa * 2 ^ exponent`, at most two digits too large. The logarithm of
two is 0.30103 to five places. -/
def exponentAbove (mantissa : Nat) (exponent : Int) : Int :=
  (exponent + mantissa.log2 + 1) * 30103 / 100000 + 1

/-- The fewest digits that read back to the double `mantissa * 2 ^ exponent`, and among those the
ones nearest to it. Seventeen digits are always enough. -/
def shortest (mantissa : Nat) (exponent : Int) (narrow : Bool) : Decimal :=
  (Interval.ofBinary mantissa exponent narrow).coarsest 21 (exponentAbove mantissa exponent)

/-- The digits of a number with no exponent: zeros fill the places up to the decimal point. -/
def text (d : Decimal) : String :=
  let digits := Nat.toDigits 10 d.digits
  let places := (-d.exponent).toNat
  if d.exponent ≥ 0 then
    String.ofList (digits ++ List.replicate d.exponent.toNat '0')
  else if places < digits.length then
    let whole := digits.length - places
    String.ofList (digits.take whole ++ '.' :: digits.drop whole)
  else
    String.ofList ('0' :: '.' :: List.replicate (places - digits.length) '0' ++ digits)

end Decimal

namespace Number

def magnitude (exponent fraction : Nat) : String :=
  if exponent = 0x7ff then "inf"
  else if exponent = 0 then
    if fraction = 0 then "0" else (Decimal.shortest fraction (-1074) false).text
  else
    (Decimal.shortest (Double.leastMantissa + fraction) (exponent - 1075) (fraction = 0 && exponent > 1)).text

/-- A number as the language prints it: the fewest digits that read back, written positionally. Both
zeros keep their sign, and a number that is none has no sign. -/
def text (x : Double) : String :=
  let (negative, exponent, fraction) := x.fields
  if x.isNaN then "NaN"
  else if negative then "-" ++ magnitude exponent fraction
  else magnitude exponent fraction

def digitValue (c : Char) : Nat :=
  c.toNat - '0'.toNat

def ofDigits (digits : List Char) : Nat :=
  digits.foldl (fun n c => 10 * n + digitValue c) 0

/-- The double nearest to the number with these digits before and after the decimal point. -/
def read (whole fraction : List Char) : Double :=
  .ofFloat (Float.ofScientific (ofDigits (whole ++ fraction)) true fraction.length)

end Number

end Lox
