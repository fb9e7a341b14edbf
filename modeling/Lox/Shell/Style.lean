/-!
# Coloured text

The escape sequences that set a piece of text apart on a terminal.
-/

namespace Lox

/-- A way to set text apart. -/
inductive Style where
  | red | cyan | dimmed
deriving DecidableEq, Repr

namespace Style

def sequence : Style → String
  | red => "\x1b[31m"
  | cyan => "\x1b[36m"
  | dimmed => "\x1b[2m"

def reset : String := "\x1b[0m"

/-- The text in the style, if colours are on. Where the text itself ends a style, this one begins
anew. -/
def paint (s : Style) (colour : Bool) (text : String) : String :=
  if colour then s.sequence ++ text.replace reset (reset ++ s.sequence) ++ reset else text

end Style

end Lox
