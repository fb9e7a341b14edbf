import Lox.Program

/-!
# Induction over programs

The induction principles of expressions and statements, with the parts that stand in a list or an
option taken one by one. `induction` uses them by default.
-/

namespace Lox

/-- Induction over expressions. -/
@[induction_eliminator]
theorem Expr.induction {motive : Expr → Prop}
    (literal : ∀ v s, motive (.literal v s))
    (var : ∀ name s, motive (.var name s))
    (assign : ∀ name value s, motive value → motive (.assign name value s))
    (unary : ∀ op operand s, motive operand → motive (.unary op operand s))
    (binary : ∀ op left right s, motive left → motive right → motive (.binary op left right s))
    (logical : ∀ op left right s, motive left → motive right → motive (.logical op left right s))
    (grouping : ∀ inner s, motive inner → motive (.grouping inner s))
    (call : ∀ callee arguments s, motive callee → (∀ e ∈ arguments, motive e) →
      motive (.call callee arguments s)) (e : Expr) : motive e := by
  cases e with
  | literal v s => exact literal v s
  | var name s => exact var name s
  | assign name value s =>
      exact assign name value s (Expr.induction literal var assign unary binary logical grouping call value)
  | unary op operand s =>
      exact unary op operand s (Expr.induction literal var assign unary binary logical grouping call operand)
  | binary op left right s =>
      exact binary op left right s (Expr.induction literal var assign unary binary logical grouping call left)
        (Expr.induction literal var assign unary binary logical grouping call right)
  | logical op left right s =>
      exact logical op left right s (Expr.induction literal var assign unary binary logical grouping call left)
        (Expr.induction literal var assign unary binary logical grouping call right)
  | grouping inner s =>
      exact grouping inner s (Expr.induction literal var assign unary binary logical grouping call inner)
  | call callee arguments s =>
      exact call callee arguments s
        (Expr.induction literal var assign unary binary logical grouping call callee)
        (fun e _ => Expr.induction literal var assign unary binary logical grouping call e)

/-- Induction over statements. -/
@[induction_eliminator]
theorem Stmt.induction {motive : Stmt → Prop}
    (expression : ∀ e s, motive (.expression e s))
    (print : ∀ e s, motive (.print e s))
    (var : ∀ name initializer s, motive (.var name initializer s))
    (block : ∀ body s, (∀ t ∈ body, motive t) → motive (.block body s))
    (ifElse : ∀ condition thenBranch elseBranch s, motive thenBranch →
      (∀ t ∈ elseBranch, motive t) → motive (.ifElse condition thenBranch elseBranch s))
    (whileLoop : ∀ condition body s, motive body → motive (.whileLoop condition body s))
    (function : ∀ name parameters body s, (∀ t ∈ body, motive t) →
      motive (.function name parameters body s))
    (returns : ∀ value s, motive (.returns value s)) (s : Stmt) : motive s := by
  cases s with
  | expression e s => exact expression e s
  | print e s => exact print e s
  | var name initializer s => exact var name initializer s
  | block body s =>
      exact block body s fun t _ =>
        Stmt.induction expression print var block ifElse whileLoop function returns t
  | ifElse condition thenBranch elseBranch s =>
      exact ifElse condition thenBranch elseBranch s
        (Stmt.induction expression print var block ifElse whileLoop function returns thenBranch)
        (fun t ht => Stmt.induction expression print var block ifElse whileLoop function returns t)
  | whileLoop condition body s =>
      exact whileLoop condition body s
        (Stmt.induction expression print var block ifElse whileLoop function returns body)
  | function name parameters body s =>
      exact function name parameters body s fun t _ =>
        Stmt.induction expression print var block ifElse whileLoop function returns t
  | returns value s => exact returns value s

end Lox
