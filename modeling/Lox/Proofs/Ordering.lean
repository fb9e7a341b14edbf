import Lox.Proofs.Extents
import Lox.Proofs.LongestMatch
import Lox.Proofs.Recovery

/-!
# The order of tokens

The tokens of a text stand in it one behind the other.

* `Place.offset_le_after`, `Place.offset_lt_after` : what stands behind some text is further back;
* `scan_ordered` : each token of a text ends before the next begins, and the end comes last.
-/

namespace Lox

/-! ## Places -/

namespace Place

theorem offset_le_after (p : Place) (cs : List Char) : p.offset ≤ (p.after cs).offset := by
  induction cs generalizing p with
  | nil => exact Nat.le_refl _
  | cons c cs ih =>
      have hnext : p.offset ≤ (p.next c).offset := by
        unfold next
        split <;> exact Nat.le_add_right _ _
      exact Nat.le_trans hnext (ih (p.next c))

theorem offset_lt_after (p : Place) {cs : List Char} (h : cs ≠ []) : p.offset < (p.after cs).offset := by
  obtain ⟨c, cs, rfl⟩ := List.exists_cons_of_ne_nil h
  have hnext : p.offset < (p.next c).offset := by
    unfold next
    split <;> exact Nat.lt_add_of_pos_right c.utf8Size_pos
  exact Nat.lt_of_lt_of_le hnext (offset_le_after (p.next c) cs)

end Place

/-! ## Scanning -/

/-- Tokens that are taken from a text stand behind the place where it begins, and in front of those taken later. -/
theorem Consumes.ordered {p p' : Place} {rest rest' : List Char} {ts us : List Token}
    (h : Consumes p rest ts p' rest') (hus : Token.Ordered us) (hbehind : ∀ t ∈ us, p'.offset ≤ t.span.start) :
    Token.Ordered (ts ++ us) ∧ ∀ t ∈ ts ++ us, p.offset ≤ t.span.start := by
  induction h with
  | nil p rest => exact ⟨hus, hbehind⟩
  | @cons p p' gap lexeme behind rest kind ts hgap hended hlexeme h ih =>
      obtain ⟨hordered, hafter⟩ := ih hbehind
      have hstart := p.offset_le_after gap
      have hstop := (p.after gap).offset_lt_after hlexeme.isLexeme.ne_nil
      rw [← Place.after_append] at hstop
      refine ⟨hordered.cons hstop hafter, fun t ht => ?_⟩
      rcases List.mem_cons.mp ht with rfl | ht
      · exact hstart
      · have hbefore := hafter t ht
        omega

/-- None of the tokens taken from a text is its end. -/
theorem Consumes.not_eof {p p' : Place} {rest rest' : List Char} {ts : List Token} (h : Consumes p rest ts p' rest') :
    ∀ t ∈ ts, t.kind.isEof = false := by
  induction h with
  | nil p rest => exact List.forall_mem_nil _
  | cons hgap hended hlexeme h ih =>
      intro t ht
      rcases List.mem_cons.mp ht with rfl | ht
      · exact hlexeme.isLexeme.isEof
      · exact ih t ht

/-- **The tokens of a text stand in it one behind the other, and its end comes last.** -/
theorem scan_ordered {source : String} {tokens : List Token} (h : scan source = .ok tokens) :
    Token.Ordered tokens ∧
      ∃ ts eof, tokens = ts ++ [eof] ∧ eof.kind = .eof ∧ ∀ t ∈ ts, t.kind.isEof = false := by
  obtain ⟨ts, p, rest, last, hconsumes, hconcludes⟩ := exists_consumes {} source.toList
  have heq := (hconsumes.scan_eq hconcludes).symm.trans h
  cases hconcludes with
  | eof hgap =>
      obtain rfl := Except.ok.inj heq
      have hlast : Token.Ordered [{ kind := .eof, span := (p.after rest).spanTo (p.after rest) }] :=
        ⟨fun t ht => by rw [List.mem_singleton.mp ht]; exact Nat.le_refl _, List.pairwise_singleton _ _⟩
      refine ⟨(hconsumes.ordered hlast fun t ht => ?_).1, ts, _, rfl, rfl, hconsumes.not_eof⟩
      rw [List.mem_singleton.mp ht]
      exact p.offset_le_after rest
  | unterminatedString hgap hcontent => cases heq
  | unexpectedChar hgap hended hc => cases heq

/-- Reading a text leaves nothing of its tokens out. -/
theorem TokenStream.tokens_of_scan {source : String} {tokens : List Token} (h : scan source = .ok tokens) :
    (TokenStream.ofTokens tokens).tokens = tokens := by
  obtain ⟨-, ts, eof, rfl, heof, hts⟩ := scan_ordered h
  have hrest := TokenStream.ofTokens_append_rest hts [eof]
  have hstop := TokenStream.ofTokens_append_stop hts (List.cons_ne_nil eof [])
  unfold TokenStream.tokens
  rw [hrest, hstop]
  simp [TokenStream.ofTokens, heof, TokenKind.isEof]

end Lox
