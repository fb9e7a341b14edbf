/-!
# Classes of characters

A `CharClass` is a set of characters given by ascending ranges of code points, the form in which
the Unicode standard publishes its properties.
-/

namespace Lox

/-- A set of characters: those whose code point lies in one of the ranges, both ends included. -/
structure CharClass where
  ranges : List (Nat × Nat)

namespace CharClass

def contains (k : CharClass) (c : Char) : Bool :=
  k.ranges.any fun (first, last) => first ≤ c.toNat && c.toNat ≤ last

end CharClass

end Lox
