import Lox.Computation
import Lox.Proofs.Evaluation
import Lox.Proofs.Induction

/-!
# The node that fails

Expressions are evaluated from left to right, so of all nodes that would fail there is one that does first.

* `Expr.Fails n w e` : the node `n`, evaluated in the world `w`, fails with the error `e` itself, its operands having
  been evaluated;
* `Expr.ComesTo`, `Program.ComesTo` : on its way an evaluation comes to a node, all that stands before it having been
  evaluated without error;
* `Expr.exists_fails`, `Program.exists_fails` : an evaluation that ends with an error comes to a node that fails with
  this error.
-/

namespace Lox

/-! ## Failing -/

/-- An expression fails with an error that none of its operands makes. -/
inductive Expr.Fails : Expr → World → RuntimeError → Prop where
  | var {name : String} {s : Span} {w : World} (hlocal : w.blocks.flatten.lookup name = none)
      (hglobal : w.globals[name]? = none) : Fails (.var name s) w (.undefinedGlobal name s)
  | assign {name : String} {value : Expr} {s : Span} {w w₁ : World} {v : Value} (hvalue : value.eval w = .ok v w₁)
      (hlocal : w₁.blocks.assign? name v = none) (hglobal : w₁.globals.contains name = false) :
      Fails (.assign name value s) w (.undefinedGlobal name s)
  | unary {op : UnaryOp} {operand : Expr} {s : Span} {w w₁ : World} {v : Value} {r : Refusal}
      (hoperand : operand.eval w = .ok v w₁) (hop : op.apply v = .error r) :
      Fails (.unary op operand s) w (.unsupportedUnary op v.type s)
  | division {op : BinaryOp} {left right : Expr} {s : Span} {w w₁ w₂ : World} {a b : Value}
      (hleft : left.eval w = .ok a w₁) (hright : right.eval w₁ = .ok b w₂)
      (hop : op.apply a b = .error .divisionByZero) : Fails (.binary op left right s) w (.divisionByZero s)
  | binary {op : BinaryOp} {left right : Expr} {s : Span} {w w₁ w₂ : World} {a b : Value}
      (hleft : left.eval w = .ok a w₁) (hright : right.eval w₁ = .ok b w₂)
      (hop : op.apply a b = .error .unsupported) :
      Fails (.binary op left right s) w (.unsupportedBinary op a.type b.type s)

/-- The error is located at the node. -/
theorem Expr.Fails.span_eq {n : Expr} {w : World} {e : RuntimeError} (h : n.Fails w e) : e.span? = some n.span := by
  cases h <;> rfl

namespace Evaluation

variable {w w' : World} {name : String} {v a b : Value} {s : Span} {e : RuntimeError}

theorem fails_of_read (h : read name s w = .error (.error e) w') : (Expr.var name s).Fails w e := by
  unfold read at h
  rw [apply_bind_of_ok (apply_get w)] at h
  cases hlocal : w.blocks.flatten.lookup name with
  | some v => rw [hlocal] at h; cases h
  | none =>
      rw [hlocal] at h
      cases hglobal : w.globals[name]? with
      | some v => simp only [hglobal] at h; cases h
      | none =>
          simp only [hglobal] at h
          cases h
          exact .var hlocal hglobal

theorem fails_of_assign {value : Expr} {w₀ : World} (hvalue : value.eval w₀ = .ok v w)
    (h : assign name v s w = .error (.error e) w') : (Expr.assign name value s).Fails w₀ e := by
  unfold assign at h
  rw [apply_bind_of_ok (apply_get w)] at h
  cases hlocal : w.blocks.assign? name v with
  | some blocks => rw [hlocal] at h; cases h
  | none =>
      rw [hlocal] at h
      cases hglobal : w.globals.contains name with
      | true => simp only [hglobal] at h; cases h
      | false =>
          simp only [hglobal] at h
          cases h
          exact .assign hvalue hlocal hglobal

theorem fails_of_unary {op : UnaryOp} {operand : Expr} {w₀ : World} (hoperand : operand.eval w₀ = .ok v w)
    (h : unary op v s w = .error (.error e) w') : (Expr.unary op operand s).Fails w₀ e := by
  unfold unary at h
  cases hop : op.apply v with
  | ok r => rw [hop] at h; cases h
  | error r =>
      rw [hop] at h
      cases h
      exact .unary hoperand hop

theorem fails_of_binary {op : BinaryOp} {left right : Expr} {w₀ w₁ : World} (hleft : left.eval w₀ = .ok a w₁)
    (hright : right.eval w₁ = .ok b w) (h : binary op a b s w = .error (.error e) w') :
    (Expr.binary op left right s).Fails w₀ e := by
  unfold binary at h
  cases hop : op.apply a b with
  | ok r => rw [hop] at h; cases h
  | error r =>
      rw [hop] at h
      cases r with
      | divisionByZero =>
          cases h
          exact .division hleft hright hop
      | unsupported =>
          cases h
          exact .binary hleft hright hop

end Evaluation

/-! ## Expressions -/

/-- The evaluation of an expression comes to the node `n`, and finds the world `v` there. -/
inductive Expr.ComesTo : Expr → World → Expr → World → Prop where
  | self (n : Expr) (v : World) : ComesTo n v n v
  | value {name : String} {value n : Expr} {s : Span} {w v : World} (h : ComesTo value w n v) :
      ComesTo (.assign name value s) w n v
  | operand {op : UnaryOp} {operand n : Expr} {s : Span} {w v : World} (h : ComesTo operand w n v) :
      ComesTo (.unary op operand s) w n v
  | left {op : BinaryOp} {left right n : Expr} {s : Span} {w v : World} (h : ComesTo left w n v) :
      ComesTo (.binary op left right s) w n v
  | right {op : BinaryOp} {left right n : Expr} {s : Span} {w w₁ v : World} {a : Value}
      (hleft : left.eval w = .ok a w₁) (h : ComesTo right w₁ n v) : ComesTo (.binary op left right s) w n v
  | first {op : LogicalOp} {left right n : Expr} {s : Span} {w v : World} (h : ComesTo left w n v) :
      ComesTo (.logical op left right s) w n v
  | second {op : LogicalOp} {left right n : Expr} {s : Span} {w w₁ v : World} {a : Value}
      (hleft : left.eval w = .ok a w₁) (hop : op.decides a = false) (h : ComesTo right w₁ n v) :
      ComesTo (.logical op left right s) w n v
  | inner {inner n : Expr} {s : Span} {w v : World} (h : ComesTo inner w n v) : ComesTo (.grouping inner s) w n v

/-- An expression whose evaluation ends with an error has a node that fails with it. -/
theorem Expr.exists_fails (x : Expr) {w w' : World} {e : RuntimeError} (h : x.eval w = .error (.error e) w') :
    ∃ n v, x.ComesTo w n v ∧ n.Fails v e := by
  induction x generalizing w w' with
  | literal v s => cases h
  | var name s => exact ⟨_, w, .self _ w, Evaluation.fails_of_read h⟩
  | assign name value s ih =>
      rcases apply_bind_eq_error.mp h with h | ⟨a, w₁, hvalue, h⟩
      · obtain ⟨n, v, hn, hfails⟩ := ih h
        exact ⟨n, v, .value hn, hfails⟩
      · rcases apply_bind_eq_error.mp h with h | ⟨_, w₂, -, h⟩
        · exact ⟨_, w, .self _ w, Evaluation.fails_of_assign hvalue h⟩
        · cases h
  | unary op operand s ih =>
      rcases apply_bind_eq_error.mp h with h | ⟨a, w₁, hoperand, h⟩
      · obtain ⟨n, v, hn, hfails⟩ := ih h
        exact ⟨n, v, .operand hn, hfails⟩
      · exact ⟨_, w, .self _ w, Evaluation.fails_of_unary hoperand h⟩
  | binary op left right s ihl ihr =>
      rcases apply_bind_eq_error.mp h with h | ⟨a, w₁, hleft, h⟩
      · obtain ⟨n, v, hn, hfails⟩ := ihl h
        exact ⟨n, v, .left hn, hfails⟩
      rcases apply_bind_eq_error.mp h with h | ⟨b, w₂, hright, h⟩
      · obtain ⟨n, v, hn, hfails⟩ := ihr h
        exact ⟨n, v, .right hleft hn, hfails⟩
      · exact ⟨_, w, .self _ w, Evaluation.fails_of_binary hleft hright h⟩
  | logical op left right s ihl ihr =>
      rcases apply_bind_eq_error.mp h with h | ⟨a, w₁, hleft, h⟩
      · obtain ⟨n, v, hn, hfails⟩ := ihl h
        exact ⟨n, v, .first hn, hfails⟩
      cases hop : op.decides a with
      | true => rw [hop] at h; cases h
      | false =>
          rw [hop] at h
          obtain ⟨n, v, hn, hfails⟩ := ihr h
          exact ⟨n, v, .second hleft hop hn, hfails⟩
  | grouping inner s ih =>
      obtain ⟨n, v, hn, hfails⟩ := ih h
      exact ⟨n, v, .inner hn, hfails⟩
  | call callee arguments s => cases h

/-! ## Statements -/

inductive Program.ComesTo : Program → World → Expr → World → Prop where
  | expression {x n : Expr} {s : Span} {rest : Program} {w v : World} (h : x.ComesTo w n v) :
      ComesTo (.expression x s :: rest) w n v
  | print {x n : Expr} {s : Span} {rest : Program} {w v : World} (h : x.ComesTo w n v) :
      ComesTo (.print x s :: rest) w n v
  | initializer {name : String} {x n : Expr} {s : Span} {rest : Program} {w v : World} (h : x.ComesTo w n v) :
      ComesTo (.var name (some x) s :: rest) w n v
  | block {body rest : Program} {n : Expr} {s : Span} {w v : World}
      (h : ComesTo body { w with blocks := [] :: w.blocks } n v) : ComesTo (.block body s :: rest) w n v
  | condition {c n : Expr} {t : Stmt} {e : Option Stmt} {s : Span} {rest : Program} {w v : World}
      (h : c.ComesTo w n v) : ComesTo (.ifElse c t e s :: rest) w n v
  | thenBranch {c n : Expr} {t : Stmt} {e : Option Stmt} {s : Span} {rest : Program} {w w₁ v : World} {a : Value}
      (hc : c.eval w = .ok a w₁) (ha : a.truthy = true) (h : ComesTo [t] w₁ n v) :
      ComesTo (.ifElse c t e s :: rest) w n v
  | elseBranch {c n : Expr} {t e : Stmt} {s : Span} {rest : Program} {w w₁ v : World} {a : Value}
      (hc : c.eval w = .ok a w₁) (ha : a.truthy = false) (h : ComesTo [e] w₁ n v) :
      ComesTo (.ifElse c t (some e) s :: rest) w n v
  | test {c n : Expr} {body : Stmt} {s : Span} {rest : Program} {w v : World} (h : c.ComesTo w n v) :
      ComesTo (.whileLoop c body s :: rest) w n v
  | body {c n : Expr} {body : Stmt} {s : Span} {rest : Program} {w w₁ v : World} {a : Value}
      (hc : c.eval w = .ok a w₁) (ha : a.truthy = true) (h : ComesTo [body] w₁ n v) :
      ComesTo (.whileLoop c body s :: rest) w n v
  | again {c n : Expr} {body : Stmt} {s : Span} {rest : Program} {w w₁ w₂ v : World} {a : Value} {rounds : Nat}
      (hc : c.eval w = .ok a w₁) (ha : a.truthy = true) (hbody : body.exec rounds w₁ = .ok () w₂)
      (h : ComesTo (.whileLoop c body s :: rest) w₂ n v) : ComesTo (.whileLoop c body s :: rest) w n v
  | later {t : Stmt} {n : Expr} {rest : Program} {w w₁ v : World} {rounds : Nat} (ht : t.exec rounds w = .ok () w₁)
      (h : ComesTo rest w₁ n v) : ComesTo (t :: rest) w n v

section Programs

variable {e : RuntimeError}

/-- A loop that ends with an error does so in its condition or in its body, in some round. -/
theorem Evaluation.exists_fails_loop {c : Expr} {body : Stmt} {s : Span} {rest : Program} {rounds k : Nat} {w w' : World}
    (hbody : ∀ w w', body.exec rounds w = .error (.error e) w' → ∃ n v, Program.ComesTo [body] w n v ∧ n.Fails v e)
    (h : loop k c.eval (body.exec rounds) w = .error (.error e) w') :
    ∃ n v, Program.ComesTo (.whileLoop c body s :: rest) w n v ∧ n.Fails v e := by
  induction k generalizing w with
  | zero => cases h
  | succ k ih =>
      rw [loop] at h
      rcases apply_bind_eq_error.mp h with h | ⟨a, w₁, hc, h⟩
      · obtain ⟨n, v, hn, hfails⟩ := c.exists_fails h
        exact ⟨n, v, .test hn, hfails⟩
      cases ha : a.truthy with
      | false => rw [ha] at h; cases h
      | true =>
          rw [ha, if_pos rfl] at h
          rcases apply_bind_eq_error.mp h with h | ⟨_, w₂, hround, h⟩
          · obtain ⟨n, v, hn, hfails⟩ := hbody w₁ w' h
            exact ⟨n, v, .body hc ha hn, hfails⟩
          · obtain ⟨n, v, hn, hfails⟩ := ih h
            exact ⟨n, v, .again hc ha hround hn, hfails⟩

mutual

theorem Stmt.exists_fails (rounds : Nat) (t : Stmt) (rest : Program) {w w' : World}
    (h : t.exec rounds w = .error (.error e) w') : ∃ n v, Program.ComesTo (t :: rest) w n v ∧ n.Fails v e := by
  cases t with
  | expression x s =>
      rw [Stmt.exec] at h
      rcases apply_bind_eq_error.mp h with h | ⟨_, w₁, -, h⟩
      · obtain ⟨n, v, hn, hfails⟩ := x.exists_fails h
        exact ⟨n, v, .expression hn, hfails⟩
      · cases h
  | print x s =>
      rw [Stmt.exec] at h
      rcases apply_bind_eq_error.mp h with h | ⟨_, w₁, -, h⟩
      · obtain ⟨n, v, hn, hfails⟩ := x.exists_fails h
        exact ⟨n, v, .print hn, hfails⟩
      · cases h
  | var name value s =>
      rw [Stmt.exec] at h
      rcases apply_bind_eq_error.mp h with h | ⟨_, w₁, -, h⟩
      · cases value with
        | none => cases h
        | some x =>
            obtain ⟨n, v, hn, hfails⟩ := x.exists_fails h
            exact ⟨n, v, .initializer hn, hfails⟩
      · cases h
  | block body s =>
      rw [Stmt.exec] at h
      rcases apply_bind_eq_error.mp h with h | ⟨_, w₁, hopen, h⟩
      · cases h
      cases hopen
      rcases apply_bind_eq_error.mp h with h | ⟨_, w₂, -, h⟩
      · obtain ⟨n, v, hn, hfails⟩ := Program.exists_fails rounds body h
        exact ⟨n, v, .block hn, hfails⟩
      · cases h
  | ifElse c t e s =>
      rw [Stmt.exec] at h
      rcases apply_bind_eq_error.mp h with h | ⟨a, w₁, hc, h⟩
      · obtain ⟨n, v, hn, hfails⟩ := c.exists_fails h
        exact ⟨n, v, .condition hn, hfails⟩
      cases ha : a.truthy with
      | true =>
          rw [ha, if_pos rfl] at h
          obtain ⟨n, v, hn, hfails⟩ := Stmt.exists_fails rounds t [] h
          exact ⟨n, v, .thenBranch hc ha hn, hfails⟩
      | false =>
          rw [ha, if_neg Bool.false_ne_true] at h
          cases e with
          | none =>
              rw [Stmt.execElse] at h
              cases h
          | some e =>
              rw [Stmt.execElse] at h
              obtain ⟨n, v, hn, hfails⟩ := Stmt.exists_fails rounds e [] h
              exact ⟨n, v, .elseBranch hc ha hn, hfails⟩
  | whileLoop c body s =>
      rw [Stmt.exec] at h
      exact Evaluation.exists_fails_loop (fun w w' hbody => Stmt.exists_fails rounds body [] hbody) h
  | function name parameters body s =>
      rw [Stmt.exec] at h
      cases h
  | returns value s =>
      rw [Stmt.exec] at h
      cases h

/-- A program whose execution ends with an error comes to a node that fails with it. -/
theorem Program.exists_fails (rounds : Nat) (p : Program) {w w' : World}
    (h : Stmt.execAll rounds p w = .error (.error e) w') : ∃ n v, Program.ComesTo p w n v ∧ n.Fails v e := by
  cases p with
  | nil =>
      rw [Stmt.execAll] at h
      cases h
  | cons t rest =>
      rw [Stmt.execAll] at h
      rcases apply_bind_eq_error.mp h with h | ⟨_, w₁, ht, h⟩
      · exact Stmt.exists_fails rounds t rest h
      · obtain ⟨n, v, hn, hfails⟩ := Program.exists_fails rounds rest h
        exact ⟨n, v, .later ht hn, hfails⟩

end

end Programs

end Lox
