import Lox.Proofs.Rereading

/-!
# What `for` loops stand for

A `for` loop can be written with `while`, and both are read alike.

* `SurfaceStmt.unfolded` : the loop `for ( I C ; U ) S`, written as `{ I while ( C ) { S U ; } }`;
* `SurfaceStmt.Unfolds f g` : a loop somewhere in the statement `f` is written so in `g`;
* `SurfaceStmt.Unfolds.canonical`, `SurfaceStmt.Unfolds.meaning` : the grammar still gives the statement, and it stands
  for the same;
* `Program.ofTokens_unfold` : so the tokens of both are read alike, up to spans.
-/

namespace Lox

namespace SurfaceStmt

/-- The body of a loop with the step behind it, `{ S U ; }`, or the body alone if there is no step. -/
def withStep (body : SurfaceStmt) : Option Expr → SurfaceStmt
  | some e => block [body, simple (.expression e)]
  | none => body

/-- The loop `for ( I C ; U ) S`, written as `{ I while ( C ) { S U ; } }`. A missing condition is `true`. Braces around
a single statement, where there is no step or no initializer, are left out. -/
def unfolded (initializer : Option SimpleStmt) (condition step : Option Expr) (body : SurfaceStmt) : SurfaceStmt :=
  let loop := whileLoop (condition.getD (.literal (.boolean true) {})) (body.withStep step)
  match initializer with
  | some c => block [simple c, loop]
  | none => loop

/-- One `for` loop of the first statement, in whatever place, is written with `while` in the second. -/
inductive Unfolds : SurfaceStmt → SurfaceStmt → Prop where
  | here (initializer : Option SimpleStmt) (condition step : Option Expr) (body : SurfaceStmt) :
      Unfolds (forLoop initializer condition step body) (unfolded initializer condition step body)
  | block (before after : List SurfaceStmt) {f g : SurfaceStmt} (h : Unfolds f g) :
      Unfolds (block (before ++ f :: after)) (block (before ++ g :: after))
  | thenBranch (condition : Expr) (elseBranch : Option SurfaceStmt) {f g : SurfaceStmt} (h : Unfolds f g) :
      Unfolds (ifElse condition f elseBranch) (ifElse condition g elseBranch)
  | elseBranch (condition : Expr) (thenBranch : SurfaceStmt) {f g : SurfaceStmt} (h : Unfolds f g) :
      Unfolds (ifElse condition thenBranch (some f)) (ifElse condition thenBranch (some g))
  | whileBody (condition : Expr) {f g : SurfaceStmt} (h : Unfolds f g) :
      Unfolds (whileLoop condition f) (whileLoop condition g)
  | forBody (initializer : Option SimpleStmt) (condition step : Option Expr) {f g : SurfaceStmt} (h : Unfolds f g) :
      Unfolds (forLoop initializer condition step f) (forLoop initializer condition step g)
  | function (name : String) (parameters : List String) (before after : List SurfaceStmt) {f g : SurfaceStmt}
      (h : Unfolds f g) :
      Unfolds (function name parameters (before ++ f :: after)) (function name parameters (before ++ g :: after))

/-! ## Lists of statements -/

theorem canonicalAll_append (fs gs : List SurfaceStmt) :
    canonicalAll (fs ++ gs) = (canonicalAll fs && canonicalAll gs) := by
  induction fs with
  | nil => rfl
  | cons f rest ih => rw [List.cons_append, canonicalAll, canonicalAll, ih, Bool.and_assoc]

theorem meaningAll_append (fs gs : List SurfaceStmt) : meaningAll (fs ++ gs) = meaningAll fs ++ meaningAll gs := by
  induction fs with
  | nil => rfl
  | cons f rest ih => rw [List.cons_append, meaningAll, meaningAll, ih, List.cons_append]

/-- One statement of a list is exchanged for another that the grammar gives. -/
theorem canonicalAll_exchange {before after : List SurfaceStmt} {f g : SurfaceStmt}
    (hfg : f.canonical = true → g.canonical = true) (h : canonicalAll (before ++ f :: after) = true) :
    canonicalAll (before ++ g :: after) = true := by
  rw [canonicalAll_append, canonicalAll, Bool.and_eq_true, Bool.and_eq_true] at h ⊢
  exact ⟨h.1, hfg h.2.1, h.2.2⟩

/-- One statement of a list is exchanged for another that stands for the same. -/
theorem meaningAll_exchange (before after : List SurfaceStmt) {f g : SurfaceStmt} (hfg : g.meaning = f.meaning) :
    meaningAll (before ++ g :: after) = meaningAll (before ++ f :: after) := by
  rw [meaningAll_append, meaningAll_append, meaningAll, meaningAll, hfg]

/-! ## One loop -/

section Loop

variable {initializer : Option SimpleStmt} {condition step : Option Expr} {body : SurfaceStmt}

theorem isDeclaration_unfolded : (unfolded initializer condition step body).isDeclaration = false := by
  cases initializer <;> rfl

/-- Braces close an `if` without `else`, and without them the loop ends as its body does. -/
theorem endsOpen_unfolded (h : (unfolded initializer condition step body).endsOpen = true) : body.endsOpen = true := by
  cases initializer with
  | some c => cases h
  | none =>
      cases step with
      | some e => cases h
      | none => exact h

theorem canonical_unfolded (h : (forLoop initializer condition step body).canonical = true) :
    (unfolded initializer condition step body).canonical = true := by
  rw [canonical, Bool.and_eq_true, Bool.and_eq_true, Bool.and_eq_true, Bool.and_eq_true, Bool.not_eq_true'] at h
  obtain ⟨⟨⟨⟨hinitializer, hcondition⟩, hstep⟩, hdecl⟩, hbody⟩ := h
  have htest : (condition.getD (.literal (.boolean true) {})).canonical = true := by
    cases condition with
    | none => rfl
    | some e => exact hcondition
  have hinner : (body.withStep step).canonical = true ∧ (body.withStep step).isDeclaration = false := by
    cases step with
    | none => exact ⟨hbody, hdecl⟩
    | some e =>
        have he : (simple (.expression e)).canonical = true := hstep
        refine ⟨?_, rfl⟩
        rw [withStep, canonical, canonicalAll, canonicalAll, hbody, he]
        rfl
  have hloop : (whileLoop (condition.getD (.literal (.boolean true) {})) (body.withStep step)).canonical = true := by
    rw [canonical, htest, hinner.1, hinner.2]
    rfl
  cases initializer with
  | none => exact hloop
  | some c =>
      rw [Option.all_some, Bool.and_eq_true] at hinitializer
      have hc : (simple c).canonical = true := hinitializer.2
      rw [unfolded, canonical, canonicalAll, canonicalAll, hc, hloop]
      rfl

theorem meaning_unfolded :
    (unfolded initializer condition step body).meaning = (forLoop initializer condition step body).meaning := by
  cases initializer <;> cases condition <;> cases step <;>
    simp [unfolded, withStep, meaning, meaningAll, Stmt.forLoop, SimpleStmt.stmt, Stmt.bare, Expr.bare, Expr.span_bare]

end Loop

/-! ## One loop in its place -/

namespace Unfolds

variable {f g : SurfaceStmt}

theorem isDeclaration (h : Unfolds f g) : g.isDeclaration = f.isDeclaration := by
  cases h with
  | here initializer condition step body => exact isDeclaration_unfolded
  | _ => rfl

theorem endsOpen (h : Unfolds f g) (hg : g.endsOpen = true) : f.endsOpen = true := by
  induction h with
  | here initializer condition step body =>
      show body.endsOpen = true
      exact endsOpen_unfolded hg
  | block before after h ih => cases hg
  | thenBranch condition elseBranch h ih =>
      cases elseBranch with
      | none => rfl
      | some f => exact hg
  | elseBranch condition thenBranch h ih => exact ih hg
  | whileBody condition h ih => exact ih hg
  | forBody initializer condition step h ih => exact ih hg
  | function name parameters before after h ih => cases hg

/-- **The grammar still gives the statement.** -/
theorem canonical (h : Unfolds f g) (hf : f.canonical = true) : g.canonical = true := by
  induction h with
  | here initializer condition step body => exact canonical_unfolded hf
  | block before after h ih =>
      rw [SurfaceStmt.canonical] at hf ⊢
      exact canonicalAll_exchange ih hf
  | thenBranch condition elseBranch h ih =>
      simp only [SurfaceStmt.canonical, Bool.and_eq_true, Bool.not_eq_true', Bool.and_eq_false_iff] at hf ⊢
      obtain ⟨⟨⟨⟨hcondition, hdecl⟩, hthen⟩, hclosed⟩, helse⟩ := hf
      refine ⟨⟨⟨⟨hcondition, h.isDeclaration.trans hdecl⟩, ih hthen⟩, ?_⟩, helse⟩
      refine hclosed.imp_right fun hclosed => Bool.eq_false_iff.mpr fun hopen => ?_
      rw [h.endsOpen hopen] at hclosed
      cases hclosed
  | elseBranch condition thenBranch h ih =>
      simp only [SurfaceStmt.canonical, canonicalElse, Bool.and_eq_true, Bool.not_eq_true'] at hf ⊢
      obtain ⟨⟨⟨hcondition, hthen⟩, hclosed⟩, hdecl, helse⟩ := hf
      exact ⟨⟨⟨hcondition, hthen⟩, hclosed⟩, h.isDeclaration.trans hdecl, ih helse⟩
  | whileBody condition h ih =>
      simp only [SurfaceStmt.canonical, Bool.and_eq_true, Bool.not_eq_true'] at hf ⊢
      exact ⟨⟨hf.1.1, h.isDeclaration.trans hf.1.2⟩, ih hf.2⟩
  | forBody initializer condition step h ih =>
      simp only [SurfaceStmt.canonical, Bool.and_eq_true, Bool.not_eq_true'] at hf ⊢
      exact ⟨⟨hf.1.1, h.isDeclaration.trans hf.1.2⟩, ih hf.2⟩
  | function name parameters before after h ih =>
      rw [SurfaceStmt.canonical, Bool.and_eq_true] at hf ⊢
      exact ⟨hf.1, canonicalAll_exchange ih hf.2⟩

/-- **The statement stands for the same.** -/
theorem meaning (h : Unfolds f g) : g.meaning = f.meaning := by
  induction h with
  | here initializer condition step body => exact meaning_unfolded
  | block before after h ih =>
      rw [SurfaceStmt.meaning, SurfaceStmt.meaning, meaningAll_exchange before after ih]
  | thenBranch condition elseBranch h ih => rw [SurfaceStmt.meaning, SurfaceStmt.meaning, ih]
  | elseBranch condition thenBranch h ih =>
      rw [SurfaceStmt.meaning, SurfaceStmt.meaning, meaningElse, meaningElse, ih]
  | whileBody condition h ih => rw [SurfaceStmt.meaning, SurfaceStmt.meaning, ih]
  | forBody initializer condition step h ih => rw [SurfaceStmt.meaning, SurfaceStmt.meaning, ih]
  | function name parameters before after h ih =>
      rw [SurfaceStmt.meaning, SurfaceStmt.meaning, meaningAll_exchange before after ih]

end Unfolds

end SurfaceStmt

/-! ## Programs -/

/-- **A `for` loop means its expansion.** A list of tokens that is a program is spelled by canonical statements. Whichever
these are, and whichever `for` loop among them or within them is written with `while`, the tokens that are spelled then
are a program as well, and the two programs are the same up to spans. -/
theorem Program.ofTokens_unfold {tokens : List Token} {p : Program} (h : Program.ofTokens tokens = .ok p) :
    (∃ fs, SurfaceStmt.canonicalAll fs = true ∧
      SurfaceStmt.spellingAll fs = (tokens.takeWhile (! ·.kind.isEof)).map (·.kind)) ∧
    ∀ before f g after, SurfaceStmt.canonicalAll (before ++ f :: after) = true →
      SurfaceStmt.spellingAll (before ++ f :: after) = (tokens.takeWhile (! ·.kind.isEof)).map (·.kind) →
      f.Unfolds g → SurfaceStmt.canonicalAll (before ++ g :: after) = true ∧
      ∀ tokens' : List Token, (tokens'.takeWhile (! ·.kind.isEof)).map (·.kind) =
          SurfaceStmt.spellingAll (before ++ g :: after) →
        ∃ p', Program.ofTokens tokens' = .ok p' ∧ p'.bare = p.bare := by
  obtain ⟨fs, s', hspelling, hcanonical, -⟩ := Program.ofTokens_written h
  refine ⟨⟨fs, hcanonical, hspelling⟩, fun before f g after hcanonical hspelling hfg => ?_⟩
  obtain ⟨q, hq, hmeaning⟩ := Program.ofTokens_of_surface hcanonical hspelling.symm
  obtain rfl := Except.ok.inj (h.symm.trans hq)
  have hcanonical' := SurfaceStmt.canonicalAll_exchange hfg.canonical hcanonical
  refine ⟨hcanonical', fun tokens' htokens' => ?_⟩
  obtain ⟨p', hp', hmeaning'⟩ := Program.ofTokens_of_surface hcanonical' htokens'
  exact ⟨p', hp', by rw [hmeaning', hmeaning, SurfaceStmt.meaningAll_exchange before after hfg.meaning]⟩

section NestedLoops

/-- The given loop in a branch that an `else` follows, `fun f(n) { if (n) LOOP else return; }`. -/
def loopInBranch (loop : SurfaceStmt) : SurfaceStmt :=
  .function "f" ["n"] [.ifElse (.var "n" {}) loop (some (.simple (.returns none)))]

/-- The given way to write the loop `for (var i; i; i = g(i)) BODY`. -/
def outerLoop
    (write : Option SimpleStmt → Option Expr → Option Expr → SurfaceStmt → SurfaceStmt) (body : SurfaceStmt) :
    SurfaceStmt :=
  write (some (.var "i" none)) (some (.var "i" {}))
    (some (.assign "i" (.call (.var "g" {}) [.var "i" {}] {}) {})) body

def innerLoop (write : Option SimpleStmt → Option Expr → Option Expr → SurfaceStmt → SurfaceStmt) : SurfaceStmt :=
  write none none none (.simple (.print (.var "i" {})))

def SurfaceStmt.tokens (f : SurfaceStmt) : List Token :=
  f.spelling.map fun kind => { kind }

/-- Two loops, one within the other, the one or the other of them written with `while`. -/
theorem Program.ofTokens_unfold_nestedLoops :
    ∃ p, Program.ofTokens (loopInBranch (outerLoop .forLoop (innerLoop .forLoop))).tokens = .ok p ∧
      (∃ p', Program.ofTokens (loopInBranch (outerLoop .unfolded (innerLoop .forLoop))).tokens = .ok p' ∧
        p'.bare = p.bare) ∧
      ∃ p', Program.ofTokens (loopInBranch (outerLoop .forLoop (innerLoop .unfolded))).tokens = .ok p' ∧
        p'.bare = p.bare := by
  have hok : (Program.ofTokens (loopInBranch (outerLoop .forLoop (innerLoop .forLoop))).tokens).isOk = true := by
    decide +kernel
  cases h : Program.ofTokens (loopInBranch (outerLoop .forLoop (innerLoop .forLoop))).tokens with
  | error e =>
      rw [h] at hok
      cases hok
  | ok p =>
      have hcanonical : SurfaceStmt.canonicalAll ([] ++ loopInBranch (outerLoop .forLoop (innerLoop .forLoop)) :: []) =
          true := by decide
      obtain ⟨-, hunfold⟩ := Program.ofTokens_unfold h
      refine ⟨p, rfl, ?_, ?_⟩
      · exact (hunfold [] _ _ [] hcanonical (by decide +kernel)
          (.function _ _ [] [] (.thenBranch _ _ (.here ..)))).2 _ (by decide +kernel)
      · exact (hunfold [] _ _ [] hcanonical (by decide +kernel)
          (.function _ _ [] [] (.thenBranch _ _ (.forBody _ _ _ (.here ..))))).2 _ (by decide +kernel)

end NestedLoops

end Lox
