import Lox.Text.CharClass

/-!
# White space

The Unicode property White_Space, and cutting it off the end of a text.
-/

namespace Lox

/-- The characters with the property White_Space. -/
def CharClass.blank : CharClass where
  ranges := [
    (0x9, 0xd), (0x20, 0x20), (0x85, 0x85), (0xa0, 0xa0), (0x1680, 0x1680), (0x2000, 0x200a),
    (0x2028, 0x2029), (0x202f, 0x202f), (0x205f, 0x205f), (0x3000, 0x3000)]

def isBlank (c : Char) : Bool :=
  CharClass.blank.contains c

def isBlankText (s : String) : Bool :=
  s.toList.all isBlank

/-- The text without the white space at its end. -/
def dropBlankEnd (s : String) : String :=
  String.ofList (s.toList.reverse.dropWhile isBlank).reverse

end Lox
