import Lox.Proofs.Writing

/-!
# Reading programs: soundness

Without `for`, the statements that are read are those that are written.

* `Program.ofTokens_sound` : so a program that is read spells the tokens it is read from, and is canonical.
-/

namespace Lox

/-- **A program that is read spells the tokens up to the end, and is canonical.** -/
theorem Program.ofTokens_sound {tokens : List Token} {p : Program} (hfor : ∀ t ∈ tokens, t.kind ≠ .reserved .for)
    (h : Program.ofTokens tokens = .ok p) :
    p.spelling = (tokens.takeWhile (! ·.kind.isEof)).map (·.kind) ∧ p.Canonical := by
  have hfor' : .reserved .for ∉ (tokens.takeWhile (! ·.kind.isEof)).map (·.kind) := by
    intro hmem
    obtain ⟨t, ht, hkind⟩ := List.mem_map.mp hmem
    exact hfor t (List.takeWhile_subset _ ht) hkind
  obtain ⟨fs, s', hspelling, hcanonical, hgives⟩ := Program.ofTokens_written h
  rw [← hspelling] at hfor' ⊢
  obtain rfl := hgives.plain hfor'
  rw [Stmt.canonicalAll_surfaceAll] at hcanonical
  exact ⟨(Stmt.spellingAll_surfaceAll p).symm, hcanonical⟩

/-- An `else` behind a loop within a branch, with operators of many levels. -/
def branchingTokens : List Token :=
  [.reserved .if, .reserved .leftParen, .identifier "a", .reserved .rightParen, .reserved .while, .reserved .leftParen,
    .identifier "b", .reserved .rightParen, .identifier "x", .reserved .equal, .reserved .bang, .identifier "f",
    .reserved .leftParen, .identifier "a", .reserved .comma, .string "s", .reserved .rightParen, .reserved .or,
    .identifier "y", .reserved .equalEqual, .reserved .nil, .reserved .semicolon, .reserved .else, .reserved .leftBrace,
    .reserved .var, .identifier "z", .reserved .semicolon, .reserved .return, .reserved .minus, .identifier "z",
    .reserved .semicolon, .reserved .rightBrace, .eof, .reserved .semicolon].map fun kind => { kind }

theorem Program.ofTokens_sound_branching :
    ∃ p, Program.ofTokens branchingTokens = .ok p ∧
      p.spelling = (branchingTokens.takeWhile (! ·.kind.isEof)).map (·.kind) ∧ p.Canonical := by
  have hok : (Program.ofTokens branchingTokens).isOk = true := by decide +kernel
  cases h : Program.ofTokens branchingTokens with
  | error e => rw [h] at hok; cases hok
  | ok p => exact ⟨p, rfl, Program.ofTokens_sound (by decide) h⟩

end Lox
