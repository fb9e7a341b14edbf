/-!
# Source spans

A `Span` is where something stands in a source text. Byte offsets say which part of the text it
covers; the line and column of its first character are what a reader of a message is shown.
-/

namespace Lox

/-- The bytes from `start` up to, but not including, `stop`. Lines and columns count from one, a
column being one character. The span of all zeros stands for no place at all. -/
structure Span where
  start : Nat := 0
  stop : Nat := 0
  line : Nat := 0
  column : Nat := 0
deriving DecidableEq, Repr, Inhabited

namespace Span

/-- The least span that covers both. It is shown at the place of the one that starts first, and of
two that start together at the place of the first named. -/
def merge (a b : Span) : Span :=
  let first := if a.start ≤ b.start then a else b
  { start := min a.start b.start
    stop := max a.stop b.stop
    line := first.line
    column := first.column }

def text (s : Span) : String :=
  s!"{s.line}:{s.column}"

def report (s : Span) (message : String) : String :=
  s!"[{s.text}] Error: {message}"

end Span

end Lox
