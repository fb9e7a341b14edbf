import Lox.Proofs.Rereading
import Lox.Proofs.Soundness

/-!
# Reading programs: completeness

* `Program.ofTokens_of_spelling` : a canonical program is read back from the tokens it spells, whatever their spans are;
* `Program.ofTokens_complete` : and no other canonical program has its tokens.
-/

namespace Lox

/-- A canonical program is read back from its tokens. -/
theorem Program.ofTokens_of_spelling {p : Program} (hp : p.Canonical) {tokens : List Token}
    (h : (tokens.takeWhile (! ·.kind.isEof)).map (·.kind) = p.spelling) :
    ∃ p', Program.ofTokens tokens = .ok p' ∧ p'.bare = p.bare := by
  unfold Program.Canonical at hp
  rw [Program.spelling, ← Stmt.spellingAll_surfaceAll] at h
  rw [← Stmt.canonicalAll_surfaceAll] at hp
  obtain ⟨p', hread, hbare⟩ := Program.ofTokens_of_surface hp h
  exact ⟨p', hread, by rw [hbare, Stmt.meaningAll_surfaceAll]; rfl⟩

/-- **A canonical program is read back from its tokens, whatever their spans are, and no other canonical program has
the same tokens.** -/
theorem Program.ofTokens_complete {p : Program} (hp : p.Canonical) {tokens : List Token}
    (h : (tokens.takeWhile (! ·.kind.isEof)).map (·.kind) = p.spelling) :
    (∃ p', Program.ofTokens tokens = .ok p' ∧ p'.bare = p.bare) ∧
      ∀ q : Program, q.Canonical → q.spelling = p.spelling → q.bare = p.bare := by
  obtain ⟨p', hread, hbare⟩ := Program.ofTokens_of_spelling hp h
  refine ⟨⟨p', hread, hbare⟩, ?_⟩
  intro q hq hspelling
  obtain ⟨q', hread', hbare'⟩ := Program.ofTokens_of_spelling hq (h.trans hspelling.symm)
  rw [hread] at hread'
  obtain rfl := Except.ok.inj hread'
  rw [← hbare', hbare]

/-- Branches of branches, a chain of assignments and of calls, and operands in parentheses:

    fun pick(a, b) {
      if (a) if (b) return; else x = y = -f()(a, b = a);
      else while (a == (b == a) or b) if (a - b - (a - b)) print "s";
    } -/
def Program.nestedBranches : Program :=
  let a : Expr := .var "a" {}
  let b : Expr := .var "b" {}
  let call : Expr := .call (.call (.var "f" {}) [] {}) [a, .assign "b" a {}] {}
  let test : Expr := .logical .or (.binary .equal a (.grouping (.binary .equal b a {}) {}) {}) b {}
  let difference : Expr := .binary .subtract a b {}
  let inLoop : Stmt := .ifElse (.binary .subtract difference (.grouping difference {}) {})
    (.print (.literal (.string "s") {}) {}) none {}
  let inner : Stmt := .ifElse b (.returns none {})
    (some (.expression (.assign "x" (.assign "y" (.unary .negate call {}) {}) {}) {})) {}
  [.function "pick" ["a", "b"] [.ifElse a inner (some (.whileLoop test inLoop {})) {}] {}]

def nestedBranchesTokens : List Token :=
  (Program.nestedBranches.spelling ++ [TokenKind.eof]).mapIdx fun i kind =>
    { kind, span := { start := i, stop := i + 1, line := 1, column := i } }

theorem Program.ofTokens_complete_nestedBranches :
    Program.nestedBranches.Canonical ∧
      (∃ p', Program.ofTokens nestedBranchesTokens = .ok p' ∧ p'.bare = Program.nestedBranches.bare) ∧
      ∀ q : Program, q.Canonical → q.spelling = Program.nestedBranches.spelling →
        q.bare = Program.nestedBranches.bare :=
  ⟨by decide, Program.ofTokens_complete (by decide) (by decide +kernel)⟩

end Lox
