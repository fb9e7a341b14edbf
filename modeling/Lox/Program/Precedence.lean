import Lox.Operator
import Lox.Token

/-!
# Binding strength

How tightly the operators that stand behind an operand bind it.
-/

namespace Lox

/-- The levels of the grammar of expressions, loosest first. -/
inductive Precedence where
  | assignment | or | and | equality | comparison | term | factor | unary | call | primary
deriving DecidableEq, Repr

namespace Precedence

def rank : Precedence → Nat
  | assignment => 1
  | or => 2
  | and => 3
  | equality => 4
  | comparison => 5
  | term => 6
  | factor => 7
  | unary => 8
  | call => 9
  | primary => 10

def next : Precedence → Precedence
  | assignment => or
  | or => and
  | and => equality
  | equality => comparison
  | comparison => term
  | term => factor
  | factor => unary
  | unary => call
  | call => primary
  | primary => primary

end Precedence

/-- What can follow an operand and take it into a larger expression. -/
inductive Continuation where
  | assign
  | logical (op : LogicalOp)
  | binary (op : BinaryOp)
  | call
  | member

def BinaryOp.precedence : BinaryOp → Precedence
  | .add | .subtract => .term
  | .multiply | .divide => .factor
  | .less | .lessEqual | .greater | .greaterEqual => .comparison
  | .equal | .notEqual => .equality

def LogicalOp.precedence : LogicalOp → Precedence
  | .or => .or
  | .and => .and

/-- How tightly a continuation binds the operand before it. -/
def Continuation.precedence : Continuation → Precedence
  | assign => .assignment
  | logical op => op.precedence
  | binary op => op.precedence
  | call => .call
  | member => .call

/-- The continuation that a keyword, operator or delimiter begins. -/
def Reserved.continuation? : Reserved → Option Continuation
  | .equal => some .assign
  | .or => some (.logical .or)
  | .and => some (.logical .and)
  | .equalEqual => some (.binary .equal)
  | .bangEqual => some (.binary .notEqual)
  | .less => some (.binary .less)
  | .lessEqual => some (.binary .lessEqual)
  | .greater => some (.binary .greater)
  | .greaterEqual => some (.binary .greaterEqual)
  | .plus => some (.binary .add)
  | .minus => some (.binary .subtract)
  | .star => some (.binary .multiply)
  | .slash => some (.binary .divide)
  | .leftParen => some .call
  | .dot => some .member
  | _ => none

def TokenKind.continuation? : TokenKind → Option Continuation
  | .reserved r => r.continuation?
  | _ => none

end Lox
