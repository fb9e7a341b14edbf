/-!
# Operators

The operators of the language, how programs spell them and how messages name them.
-/

namespace Lox

/-- An operator on the values of two operands. -/
inductive BinaryOp where
  | add | subtract | multiply | divide
  | less | lessEqual | greater | greaterEqual
  | equal | notEqual
deriving DecidableEq, Repr

/-- An operator that may leave its right operand unevaluated. -/
inductive LogicalOp where
  | and | or
deriving DecidableEq, Repr

/-- An operator on the value of one operand. -/
inductive UnaryOp where
  | negate | not
deriving DecidableEq, Repr

namespace BinaryOp

def symbol : BinaryOp → String
  | add => "+"
  | subtract => "-"
  | multiply => "*"
  | divide => "/"
  | less => "<"
  | lessEqual => "<="
  | greater => ">"
  | greaterEqual => ">="
  | equal => "=="
  | notEqual => "!="

def word : BinaryOp → String
  | add => "add"
  | subtract => "subtract"
  | multiply => "multiply"
  | divide => "divide"
  | less => "less"
  | lessEqual => "less equal"
  | greater => "greater"
  | greaterEqual => "greater equal"
  | equal => "equal"
  | notEqual => "not equal"

/-- The operator as messages name it, in words and as spelt. -/
def description (op : BinaryOp) : String :=
  s!"{op.word} '{op.symbol}'"

end BinaryOp

namespace UnaryOp

def symbol : UnaryOp → String
  | negate => "-"
  | not => "!"

def word : UnaryOp → String
  | negate => "negate"
  | not => "not"

def description (op : UnaryOp) : String :=
  s!"{op.word} '{op.symbol}'"

end UnaryOp

end Lox
