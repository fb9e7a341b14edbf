import Lox.Proofs.Assembly
import Lox.Computation
import Lox.Proofs.Evaluation
import Lox.Proofs.Induction

/-!
# Variables of a program that runs

The names in scope while a program is evaluated are those that its assembly is written for.

* `Environment.scope`, `Environment.values` : the names and the values of the variables of open blocks;
* `Environment.lookup_eq_some`, `Environment.assign?_eq_some` : a variable is found, and assigned to, at the slot
  that its name has in the scope;
* `Expr.scope_eval` : expressions declare nothing;
* `Stmt.scope_exec` : statements declare what `Stmt.declared` says, if no branch is a declaration.
-/

namespace Lox

/-! ## Slots -/

section Bindings

variable {name : String} {bindings : List (String × Value)} {slot : Nat}

theorem lookup_eq_none_of_slotIn (h : slotIn name (bindings.map Prod.fst) = none) :
    bindings.lookup name = none := by
  induction bindings with
  | nil => rfl
  | cons b bindings ih =>
      by_cases hb : b.1 = name
      · simp [slotIn, hb] at h
      · rw [List.map_cons, slotIn, if_neg hb] at h
        rw [List.lookup_cons, beq_false_of_ne (Ne.symm hb)]
        exact ih h

/-- The value of a variable stands at its slot, counted from the last binding. -/
theorem lookup_eq_some_of_slotIn (h : slotIn name (bindings.map Prod.fst) = some slot) :
    slot < bindings.length ∧ ∃ v, bindings.lookup name = some v ∧
      (bindings.map Prod.snd)[bindings.length - 1 - slot]? = some v := by
  induction bindings with
  | nil => cases h
  | cons b bindings ih =>
      by_cases hb : b.1 = name
      · rw [List.map_cons, slotIn, if_pos hb, List.length_map] at h
        obtain rfl := Option.some.inj h
        refine ⟨by simp, b.2, ?_, by simp⟩
        rw [List.lookup_cons, beq_iff_eq.mpr hb.symm]
      · rw [List.map_cons, slotIn, if_neg hb] at h
        obtain ⟨hlt, v, hv, hget⟩ := ih h
        have hindex : (b :: bindings).length - 1 - slot = bindings.length - 1 - slot + 1 := by
          rw [List.length_cons]
          omega
        refine ⟨by rw [List.length_cons]; omega, v, ?_, ?_⟩
        · rw [List.lookup_cons, beq_false_of_ne (Ne.symm hb)]
          exact hv
        · rw [hindex, List.map_cons, List.getElem?_cons_succ]
          exact hget

theorem rebind_eq_none_of_slotIn (v : Value) (h : slotIn name (bindings.map Prod.fst) = none) :
    Environment.rebind name v bindings = none := by
  induction bindings with
  | nil => rfl
  | cons b bindings ih =>
      by_cases hb : b.1 = name
      · simp [slotIn, hb] at h
      · rw [List.map_cons, slotIn, if_neg hb] at h
        rw [Environment.rebind, if_neg hb, ih h]
        rfl

/-- A variable is assigned to at its slot. -/
theorem rebind_eq_some_of_slotIn (v : Value) (h : slotIn name (bindings.map Prod.fst) = some slot) :
    ∃ bindings', Environment.rebind name v bindings = some bindings' ∧
      bindings'.map Prod.snd = (bindings.map Prod.snd).set (bindings.length - 1 - slot) v := by
  induction bindings with
  | nil => cases h
  | cons b bindings ih =>
      by_cases hb : b.1 = name
      · rw [List.map_cons, slotIn, if_pos hb, List.length_map] at h
        obtain rfl := Option.some.inj h
        refine ⟨(b.1, v) :: bindings, ?_, by simp⟩
        rw [Environment.rebind, if_pos hb]
      · rw [List.map_cons, slotIn, if_neg hb] at h
        obtain ⟨hlt, -⟩ := lookup_eq_some_of_slotIn h
        obtain ⟨bindings', hr, hvalues⟩ := ih h
        have hindex : (b :: bindings).length - 1 - slot = bindings.length - 1 - slot + 1 := by
          rw [List.length_cons]
          omega
        refine ⟨b :: bindings', ?_, ?_⟩
        · rw [Environment.rebind, if_neg hb, hr]
          rfl
        · rw [hindex, List.map_cons, List.map_cons, List.set_cons_succ, hvalues]

theorem map_fst_rebind {v : Value} {bindings' : List (String × Value)}
    (h : Environment.rebind name v bindings = some bindings') :
    bindings'.map Prod.fst = bindings.map Prod.fst := by
  induction bindings generalizing bindings' with
  | nil => cases h
  | cons b bindings ih =>
      rw [Environment.rebind] at h
      split at h
      · obtain rfl := Option.some.inj h
        rfl
      · obtain ⟨rest, hrest, rfl⟩ := Option.map_eq_some_iff.mp h
        rw [List.map_cons, List.map_cons, ih hrest]

theorem rebind_append (v : Value) (xs ys : List (String × Value)) :
    Environment.rebind name v (xs ++ ys) =
      ((Environment.rebind name v xs).map (· ++ ys)).or ((Environment.rebind name v ys).map (xs ++ ·)) := by
  induction xs with
  | nil => simp [Environment.rebind]
  | cons x xs ih =>
      by_cases hx : x.1 = name
      · simp [Environment.rebind, hx]
      · rw [List.cons_append, Environment.rebind, if_neg hx, ih, Environment.rebind, if_neg hx]
        cases Environment.rebind name v xs with
        | some zs => rfl
        | none => cases Environment.rebind name v ys <;> rfl

end Bindings

namespace Environment

def scope (env : Environment) : Scope :=
  env.map (·.map Prod.fst)

/-- The values of the variables, the innermost first. -/
def values (env : Environment) : List Value :=
  env.flatten.map Prod.snd

@[simp] theorem length_values (env : Environment) : env.values.length = env.scope.height := by
  simp [values, scope, Scope.height, List.length_flatten, Function.comp_def]

theorem flatten_scope (env : Environment) : env.scope.flatten = env.flatten.map Prod.fst := by
  simp [scope, List.map_flatten]

theorem height_scope (env : Environment) : env.scope.height = env.flatten.length := by
  rw [← length_values, values, List.length_map]

variable {name : String} {env : Environment} {slot : Nat}

theorem lookup_eq_none (h : env.scope.slot? name = none) : env.flatten.lookup name = none := by
  rw [Scope.slot?, flatten_scope] at h
  exact lookup_eq_none_of_slotIn h

theorem lookup_eq_some (h : env.scope.slot? name = some slot) :
    slot < env.scope.height ∧ ∃ v, env.flatten.lookup name = some v ∧
      env.values[env.scope.height - 1 - slot]? = some v := by
  rw [Scope.slot?, flatten_scope] at h
  rw [height_scope]
  exact lookup_eq_some_of_slotIn h

theorem flatten_assign? (v : Value) (env : Environment) :
    (env.assign? name v).map List.flatten = rebind name v env.flatten := by
  induction env with
  | nil => rfl
  | cons block env ih =>
      rw [assign?, List.flatten_cons, rebind_append, ← ih]
      cases rebind name v block with
      | some block' => rfl
      | none => cases assign? name v env <;> rfl

theorem scope_assign? {v : Value} {env' : Environment} (h : env.assign? name v = some env') :
    env'.scope = env.scope := by
  induction env generalizing env' with
  | nil => cases h
  | cons block env ih =>
      rw [assign?] at h
      split at h
      · obtain rfl := Option.some.inj h
        simp [scope, map_fst_rebind ‹_›]
      · obtain ⟨outer, houter, rfl⟩ := Option.map_eq_some_iff.mp h
        have := ih houter
        simp only [scope, List.map_cons] at this ⊢
        rw [this]

theorem assign?_eq_none (v : Value) (h : env.scope.slot? name = none) : env.assign? name v = none := by
  rw [Scope.slot?, flatten_scope] at h
  have hnone := rebind_eq_none_of_slotIn v h
  rwa [← flatten_assign?, Option.map_eq_none_iff] at hnone

/-- A local variable is assigned to at its slot, and no other variable changes. -/
theorem assign?_eq_some (v : Value) (h : env.scope.slot? name = some slot) :
    ∃ env', env.assign? name v = some env' ∧
      env'.values = env.values.set (env.scope.height - 1 - slot) v := by
  rw [Scope.slot?, flatten_scope] at h
  obtain ⟨bindings, hr, hvalues⟩ := rebind_eq_some_of_slotIn v h
  rw [← flatten_assign?] at hr
  obtain ⟨env', henv, rfl⟩ := Option.map_eq_some_iff.mp hr
  refine ⟨env', henv, ?_⟩
  rw [height_scope]
  exact hvalues

end Environment

/-! ## Evaluation keeps the scope -/

namespace Evaluation

variable {w w' : World} {name : String} {v : Value} {span : Span}

theorem read_eq_ok (h : read name span w = .ok v w') : w' = w := by
  unfold read at h
  rw [apply_bind_of_ok (apply_get w)] at h
  cases hlocal : w.blocks.flatten.lookup name with
  | some u =>
      rw [hlocal] at h
      exact (EStateM.Result.ok.inj h).2.symm
  | none =>
      rw [hlocal] at h
      cases hglobal : w.globals[name]? with
      | some u =>
          simp only [hglobal] at h
          exact (EStateM.Result.ok.inj h).2.symm
      | none =>
          simp only [hglobal] at h
          cases h

theorem binary_eq_ok {op : BinaryOp} {a b : Value} (h : binary op a b span w = .ok v w') : w' = w := by
  unfold binary at h
  cases hr : op.apply a b with
  | ok r =>
      rw [hr] at h
      exact (EStateM.Result.ok.inj h).2.symm
  | error e => cases e <;> rw [hr] at h <;> cases h

theorem unary_eq_ok {op : UnaryOp} {a : Value} (h : unary op a span w = .ok v w') : w' = w := by
  unfold unary at h
  cases hr : op.apply a with
  | ok r =>
      rw [hr] at h
      exact (EStateM.Result.ok.inj h).2.symm
  | error e => rw [hr] at h; cases h

theorem scope_assign (h : assign name v span w = .ok () w') : w'.blocks.scope = w.blocks.scope := by
  unfold assign at h
  rw [apply_bind_of_ok (apply_get w)] at h
  cases hblocks : w.blocks.assign? name v with
  | some blocks =>
      rw [hblocks] at h
      cases h
      exact Environment.scope_assign? hblocks
  | none =>
      rw [hblocks] at h
      simp only at h
      split at h <;> cases h
      rfl

theorem scope_declare (h : declare name v w = .ok () w') :
    w'.blocks.scope = w.blocks.scope.extend [name] := by
  obtain ⟨globals, blocks, output⟩ := w
  cases h
  cases blocks <;> rfl

end Evaluation

/-- Expressions declare no variables. -/
theorem Expr.scope_eval (e : Expr) {w w' : World} {v : Value} (h : e.eval w = .ok v w') :
    w'.blocks.scope = w.blocks.scope := by
  induction e generalizing w w' v with
  | literal u s => cases h; rfl
  | var name s => rw [Evaluation.read_eq_ok h]
  | assign name value s ih =>
      obtain ⟨u, w₁, h₁, h⟩ := apply_bind_eq_ok.mp h
      obtain ⟨⟨⟩, w₂, h₂, h⟩ := apply_bind_eq_ok.mp h
      cases h
      rw [Evaluation.scope_assign h₂, ih h₁]
  | unary op operand s ih =>
      obtain ⟨u, w₁, h₁, h⟩ := apply_bind_eq_ok.mp h
      rw [Evaluation.unary_eq_ok h, ih h₁]
  | binary op left right s ihl ihr =>
      obtain ⟨a, w₁, h₁, h⟩ := apply_bind_eq_ok.mp h
      obtain ⟨b, w₂, h₂, h⟩ := apply_bind_eq_ok.mp h
      rw [Evaluation.binary_eq_ok h, ihr h₂, ihl h₁]
  | logical op left right s ihl ihr =>
      obtain ⟨a, w₁, h₁, h⟩ := apply_bind_eq_ok.mp h
      cases hd : op.decides a with
      | true =>
          rw [hd] at h
          cases h
          exact ihl h₁
      | false =>
          rw [hd] at h
          rw [ihr h, ihl h₁]
  | grouping inner s ih => exact ih h
  | call callee arguments s => cases h

theorem Expr.scope_evalInitial (value : Option Expr) {w w' : World} {v : Value}
    (h : Expr.evalInitial value w = .ok v w') : w'.blocks.scope = w.blocks.scope := by
  cases value with
  | none => cases h; rfl
  | some e => exact e.scope_eval h

/-- A loop keeps the scope if its parts do. -/
theorem Evaluation.scope_loop {test : Evaluation Value} {body : Evaluation Unit}
    (htest : ∀ w v w', test w = .ok v w' → w'.blocks.scope = w.blocks.scope)
    (hbody : ∀ w w', body w = .ok () w' → w'.blocks.scope = w.blocks.scope)
    (n : Nat) {w w' : World} (h : loop n test body w = .ok () w') : w'.blocks.scope = w.blocks.scope := by
  induction n generalizing w with
  | zero => cases h
  | succ n ih =>
      obtain ⟨v, w₁, h₁, h⟩ := apply_bind_eq_ok.mp h
      cases hv : v.truthy with
      | true =>
          rw [hv] at h
          obtain ⟨⟨⟩, w₂, h₂, h⟩ := apply_bind_eq_ok.mp h
          rw [ih h, hbody _ _ h₂, htest _ _ _ h₁]
      | false =>
          rw [hv] at h
          cases h
          exact htest _ _ _ h₁

mutual

/-- A statement declares the names that its assembly reckons with. -/
theorem Stmt.scope_exec (rounds : Nat) (s : Stmt) (hs : s.wellFormed = true) {w w' : World}
    (h : s.exec rounds w = .ok () w') : w'.blocks.scope = w.blocks.scope.extend s.declared := by
  cases s with
  | expression e s =>
      rw [Stmt.exec] at h
      obtain ⟨v, w₁, h₁, h⟩ := apply_bind_eq_ok.mp h
      cases h
      simp only [Stmt.declared, Scope.extend_nil]
      exact e.scope_eval h₁
  | print e s =>
      rw [Stmt.exec] at h
      obtain ⟨v, w₁, h₁, h⟩ := apply_bind_eq_ok.mp h
      have hblocks : w'.blocks = w₁.blocks := by cases h; rfl
      simp only [Stmt.declared, Scope.extend_nil, hblocks]
      exact e.scope_eval h₁
  | var name value s =>
      rw [Stmt.exec] at h
      obtain ⟨v, w₁, h₁, h⟩ := apply_bind_eq_ok.mp h
      rw [Evaluation.scope_declare h, Expr.scope_evalInitial value h₁, Stmt.declared]
  | block body s =>
      rw [Stmt.exec] at h
      obtain ⟨⟨⟩, w₁, h₁, h⟩ := apply_bind_eq_ok.mp h
      obtain ⟨⟨⟩, w₂, h₂, h₃⟩ := apply_bind_eq_ok.mp h
      rw [Stmt.wellFormed] at hs
      have hopen : w₁.blocks = [] :: w.blocks := by cases h₁; rfl
      have hclose : w'.blocks.scope = w₂.blocks.scope.tail := by
        cases h₃
        exact List.map_tail
      have hbody := Stmt.scope_execAll rounds body hs h₂
      simp only [Stmt.declared, Scope.extend_nil, hclose, hbody, hopen]
      rfl
  | ifElse c t e s =>
      rw [Stmt.wellFormed, Bool.and_eq_true, Bool.and_eq_true, Bool.not_eq_true'] at hs
      obtain ⟨⟨htv, htw⟩, hew⟩ := hs
      rw [Stmt.exec] at h
      obtain ⟨v, w₁, h₁, h⟩ := apply_bind_eq_ok.mp h
      rw [Stmt.declared, Stmt.declaredElse_of_wellFormed e hew, Stmt.declared_of_wellFormed t htw htv,
        List.append_nil, Scope.extend_nil, ← c.scope_eval h₁]
      cases hv : v.truthy with
      | true =>
          rw [hv] at h
          rw [Stmt.scope_exec rounds t htw h, Stmt.declared_of_wellFormed t htw htv, Scope.extend_nil]
      | false =>
          rw [hv] at h
          rw [Stmt.scope_execElse rounds e hew h]
  | whileLoop c body s =>
      rw [Stmt.wellFormed, Bool.and_eq_true, Bool.not_eq_true'] at hs
      rw [Stmt.exec] at h
      rw [Stmt.declared, Stmt.declared_of_wellFormed body hs.2 hs.1, Scope.extend_nil]
      refine Evaluation.scope_loop (fun _ _ _ => c.scope_eval) (fun w w' h => ?_) rounds h
      rw [Stmt.scope_exec rounds body hs.2 h, Stmt.declared_of_wellFormed body hs.2 hs.1, Scope.extend_nil]
  | function name parameters body s => rw [Stmt.exec] at h; cases h
  | returns value s => rw [Stmt.exec] at h; cases h

theorem Stmt.scope_execElse (rounds : Nat) (e : Option Stmt) (he : Stmt.wellFormedElse e = true) {w w' : World}
    (h : Stmt.execElse rounds e w = .ok () w') : w'.blocks.scope = w.blocks.scope := by
  cases e with
  | none => rw [Stmt.execElse] at h; cases h; rfl
  | some s =>
      rw [Stmt.wellFormedElse, Bool.and_eq_true, Bool.not_eq_true'] at he
      rw [Stmt.execElse] at h
      rw [Stmt.scope_exec rounds s he.2 h, Stmt.declared_of_wellFormed s he.2 he.1, Scope.extend_nil]

theorem Stmt.scope_execAll (rounds : Nat) (body : List Stmt) (hb : Stmt.wellFormedAll body = true) {w w' : World}
    (h : Stmt.execAll rounds body w = .ok () w') :
    w'.blocks.scope = w.blocks.scope.extend (Stmt.declaredAll body) := by
  cases body with
  | nil =>
      rw [Stmt.execAll] at h
      cases h
      rw [Stmt.declaredAll, Scope.extend_nil]
  | cons s rest =>
      rw [Stmt.wellFormedAll, Bool.and_eq_true] at hb
      rw [Stmt.execAll] at h
      obtain ⟨⟨⟩, w₁, h₁, h⟩ := apply_bind_eq_ok.mp h
      rw [Stmt.scope_execAll rounds rest hb.2 h, Stmt.scope_exec rounds s hb.1 h₁, Stmt.declaredAll,
        Scope.extend_append]

end

end Lox
