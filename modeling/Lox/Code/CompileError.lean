import Lox.Span

/-!
# Errors of compilation

Why a program that is well formed has no code. The limits come from the width of operands.
-/

namespace Lox

/-- Why a program cannot be compiled. -/
inductive CompileError where
  | tooManyConstants (span : Span)
  | tooManyLocals (span : Span)
  | duplicateLocal (name : String) (span : Span)
  | selfReference (name : String) (span : Span)
  | jumpTooLarge (span : Span)
  | nulInString (span : Span)
deriving DecidableEq, Repr

namespace CompileError

def span : CompileError → Span
  | tooManyConstants s => s
  | tooManyLocals s => s
  | duplicateLocal _ s => s
  | selfReference _ s => s
  | jumpTooLarge s => s
  | nulInString s => s

/-- What is wrong, without the place. -/
def reason : CompileError → String
  | tooManyConstants _ => "Too many constants in one chunk"
  | tooManyLocals _ => "Too many local variables in scope"
  | duplicateLocal name _ => s!"Variable '{name}' already declared in this scope"
  | selfReference name _ => s!"Can't read local variable '{name}' in its own initializer"
  | jumpTooLarge _ => "Too much code to jump over"
  | nulInString _ => "String constant can't contain a nul character"

def message (e : CompileError) : String :=
  e.span.report e.reason

end CompileError

end Lox
