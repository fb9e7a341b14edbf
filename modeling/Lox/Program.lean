import Lox.Operator
import Lox.Span
import Lox.Value

/-!
# Programs

The trees that programs are. Every node carries the span of the text it was read from.
-/

namespace Lox

inductive Expr where
  | literal (value : Value) (span : Span)
  | var (name : String) (span : Span)
  | assign (name : String) (value : Expr) (span : Span)
  | unary (op : UnaryOp) (operand : Expr) (span : Span)
  | binary (op : BinaryOp) (left right : Expr) (span : Span)
  | logical (op : LogicalOp) (left right : Expr) (span : Span)
  | grouping (inner : Expr) (span : Span)
  | call (callee : Expr) (arguments : List Expr) (span : Span)
deriving Inhabited

/-- The text an expression was read from. -/
def Expr.span : Expr → Span
  | literal _ s => s
  | var _ s => s
  | assign _ _ s => s
  | unary _ _ s => s
  | binary _ _ _ s => s
  | logical _ _ _ s => s
  | grouping _ s => s
  | call _ _ s => s

/-- A statement or declaration. -/
inductive Stmt where
  | expression (e : Expr) (span : Span)
  | print (e : Expr) (span : Span)
  | var (name : String) (initializer : Option Expr) (span : Span)
  | block (body : List Stmt) (span : Span)
  | ifElse (condition : Expr) (thenBranch : Stmt) (elseBranch : Option Stmt) (span : Span)
  | whileLoop (condition : Expr) (body : Stmt) (span : Span)
  | function (name : String) (parameters : List String) (body : List Stmt) (span : Span)
  | returns (value : Option Expr) (span : Span)
deriving Inhabited

def Stmt.span : Stmt → Span
  | expression _ s => s
  | print _ s => s
  | var _ _ s => s
  | block _ s => s
  | ifElse _ _ _ s => s
  | whileLoop _ _ s => s
  | function _ _ _ s => s
  | returns _ s => s

/-- What a `for` loop stands for: its initializer, if any, before a `while` loop whose body ends with the
step, if any. A missing condition is `true`. The nodes that the loop does not spell have its span. -/
def Stmt.forLoop (initializer : Option Stmt) (condition step : Option Expr) (body : Stmt)
    (span : Span) : Stmt :=
  let body := match step with
    | some e => .block [body, .expression e e.span] span
    | none => body
  let loop := .whileLoop (condition.getD (.literal (.boolean true) span)) body span
  match initializer with
  | some s => .block [s, loop] span
  | none => loop

abbrev Program := List Stmt

end Lox
