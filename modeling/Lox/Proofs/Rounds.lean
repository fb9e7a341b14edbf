import Lox.Proofs.Recovery
import Lox.Proofs.Ordering

/-!
# The rounds of a reading

A program is read in rounds. Each begins at some token, reads a declaration or reports an error, and leaves the token
where the next one begins.

* `Round` and `TokenStream.ReadIn` : the rounds in which a stream is read;
* `TokenStream.exists_readIn` : every stream is read in some rounds, whatever the depth allowed is, if it is enough;
* `TokenStream.ReadIn.forward` : every round moves forward, from `Parser.declaration_advances`;
* `TokenStream.ReadIn.from_eq` : a reading collects what its rounds give, and none of its counts runs out;
* `Program.ofTokens_rounds` : so the reading of a program moves forward, and its errors come in order.
-/

namespace Lox

/-- A round of a reading. Tokens are numbered from the first of the program on. -/
structure Round where
  /-- The token where the round begins. -/
  start : Nat
  outcome : Except SyntaxError Stmt
  /-- The token where the next round begins, or the end. -/
  next : Nat

namespace Round

def statement? (r : Round) : Option Stmt :=
  r.outcome.toOption

def error? (r : Round) : Option SyntaxError :=
  match r.outcome with
  | .ok _ => none
  | .error e => some e

theorem error?_eq_some {r : Round} {e : SyntaxError} : r.error? = some e ↔ r.outcome = .error e := by
  unfold error?
  cases r.outcome <;> simp

/-- Each round reads a statement or reports an error. -/
theorem length_filterMap (rs : List Round) :
    (rs.filterMap statement?).length + (rs.filterMap error?).length = rs.length := by
  induction rs with
  | nil => rfl
  | cons r rs ih =>
      obtain ⟨start, outcome, next⟩ := r
      cases outcome <;>
        simp [List.filterMap_cons, statement?, error?, Except.toOption] <;> omega

/-- The round has failed, and its error has the span of token `k`. This token is not in front of the one where the
round begins, and it is in front of the one where the next round begins, if there is a next round. -/
structure ReportedAt (s : TokenStream) (r : Round) (k : Nat) : Prop where
  span : ∃ e t, r.outcome = .error e ∧ s.tokens[k]? = some t ∧ e.span = t.span
  start_le : r.start ≤ k
  lt_next : r.next < s.rest.length → k < r.next

/-- The round moves forward, and if it fails, its error points at a token that it has come to. -/
structure Forward (s : TokenStream) (r : Round) : Prop where
  start_lt_next : r.start < r.next
  next_le : r.next ≤ s.rest.length
  reported : ∀ e, r.outcome = .error e → ∃ k, r.ReportedAt s k

theorem ReportedAt.lt {s : TokenStream} {r r' : Round} {k k' : Nat} (h : ReportedAt s r k) (h' : ReportedAt s r' k')
    (hrr' : r.next ≤ r'.start) (hr' : r'.start < s.rest.length) : k < k' := by
  have hlt := h.lt_next (by omega)
  have hle := h'.start_le
  omega

end Round

namespace TokenStream

/-- The rounds in which the stream is read, as the last part of a program of `total` tokens. -/
inductive ReadIn (fuel total : Nat) : TokenStream → List Round → Prop where
  | done {s : TokenStream} (h : s.rest = []) : ReadIn fuel total s []
  | statement {s s' : TokenStream} {d : Stmt} {rs : List Round} (hs : s.rest ≠ [])
      (hd : Parser.declaration fuel s = .ok d s') (h : ReadIn fuel total s' rs) :
      ReadIn fuel total s
        ({ start := total - s.rest.length, outcome := .ok d, next := total - s'.rest.length } :: rs)
  | error {s s' : TokenStream} {e : SyntaxError} {rs : List Round} (hs : s.rest ≠ [])
      (hd : Parser.declaration fuel s = .error (.error e) s') (h : ReadIn fuel total s'.resume rs) :
      ReadIn fuel total s
        ({ start := total - s.rest.length, outcome := .error e, next := total - s'.resume.rest.length } :: rs)

/-! ## One round -/

section Round

variable {w s s' : TokenStream} {d : Stmt} {e : SyntaxError} {fuel m : Nat}

/-- A declaration is read alike whatever the depth allowed is, if it is enough. -/
theorem declaration_fuel (hs : s.stop.kind = .eof) (hfuel : 4 * s.rest.length + 4 ≤ fuel)
    (hm : 4 * s.rest.length + 4 ≤ m) : Parser.declaration fuel s = Parser.declaration m s := by
  have hsame : Same (s.rest.length + 1) s.rest.length s s := ⟨rfl, rfl, hs, rfl, Nat.le_succ _, fun _ => rfl⟩
  have halike := (Parser.declarations_alike (s.rest.length + 1) fuel).1 hsame hfuel hm
  have hmoved := Parser.declaration_advances hfuel s hs (Nat.le_refl _)
  generalize Parser.declaration fuel s = x at halike hmoved
  generalize Parser.declaration m s = y at halike
  cases halike with
  | ok d hl h => rw [h.eq (by omega)]
  | error he h | missing he h =>
      cases hmoved with
      | error hmoved hreports =>
          have hlength := hmoved.length
          have hleft := h.length
          rw [h.eq (by omega)]

/-- A round that reads a declaration takes a token at least. -/
theorem moved_declaration (hs : s.stop.kind = .eof) (hfuel : 4 * s.rest.length + 4 ≤ fuel)
    (hd : Parser.declaration fuel s = .ok d s') : s.Moved 1 s' := by
  have hproceeds := Parser.declaration_advances hfuel s hs (Nat.le_refl _)
  rw [hd] at hproceeds
  cases hproceeds with
  | ok _ hmoved => exact hmoved

/-- A round that fails moves forward nevertheless, past the token that its error points at. -/
theorem moved_resume (hs : s.stop.kind = .eof) (hfuel : 4 * s.rest.length + 4 ≤ fuel) (hne : s.rest ≠ [])
    (hd : Parser.declaration fuel s = .error (.error e) s') :
    s.Moved 1 s'.resume ∧ ∃ k t, s.tokens[k]? = some t ∧ e.span = t.span ∧
      (s'.resume.rest ≠ [] → k + s'.resume.rest.length < s.rest.length) := by
  have hproceeds := Parser.declaration_advances hfuel s hs (Nat.le_refl _)
  rw [hd] at hproceeds
  cases hproceeds with
  | error hmoved hreports =>
      obtain ⟨k, t, ht, hspan, hk⟩ := hreports
      refine ⟨hmoved.resume hne, k, t, ht, hspan, fun hleft => ?_⟩
      obtain ⟨t', ts, hrest⟩ := List.exists_cons_of_ne_nil fun hnil => hleft (by rw [resume_of_nil hnil, hnil])
      have hlt := resume_length_lt hrest
      omega

/-- The round that reads a declaration in the midst of a program. -/
theorem forward_of_ok (hw : w.Moved m s) (hmoved : s.Moved 1 s') :
    Round.Forward w
      { start := w.rest.length - s.rest.length, outcome := .ok d, next := w.rest.length - s'.rest.length } := by
  have hlength := hw.length
  have hlength' := hmoved.length
  exact ⟨by dsimp only; omega, Nat.sub_le _ _, fun e h => by cases h⟩

/-- The round that fails in the midst of a program. -/
theorem forward_of_error (hs : s.stop.kind = .eof) (hfuel : 4 * s.rest.length + 4 ≤ fuel) (hne : s.rest ≠ [])
    (hd : Parser.declaration fuel s = .error (.error e) s') (hw : w.Moved m s) :
    Round.Forward w
      { start := w.rest.length - s.rest.length, outcome := .error e,
        next := w.rest.length - s'.resume.rest.length } := by
  obtain ⟨hmoved, k, t, ht, hspan, hk⟩ := moved_resume hs hfuel hne hd
  obtain ⟨us, htokens, hus⟩ := hw.tokens
  have hlength := hmoved.length
  refine ⟨by dsimp only; omega, Nat.sub_le _ _, fun _ _ => ⟨us.length + k, ⟨e, t, rfl, ?_, hspan⟩, ?_, ?_⟩⟩
  · rw [htokens, List.getElem?_append_right (Nat.le_add_right _ _), Nat.add_sub_cancel_left, ht]
  · dsimp only
    omega
  · intro hnext
    dsimp only at hnext ⊢
    have hleft := hk (List.length_pos_iff.mp (by omega))
    omega

end Round

/-! ## All rounds -/

/-- **Every stream is read in rounds**, and these do not depend on the depth allowed. -/
theorem exists_readIn (total : Nat) (s : TokenStream) (hs : s.stop.kind = .eof) :
    ∃ rs, ∀ fuel, 4 * s.rest.length + 4 ≤ fuel → ReadIn fuel total s rs := by
  induction hl : s.rest.length using Nat.strongRecOn generalizing s with
  | ind l ih =>
      subst hl
      by_cases hnil : s.rest = []
      · exact ⟨[], fun _ _ => .done hnil⟩
      have hproceeds := Parser.declaration_advances (Nat.le_refl _) s hs (Nat.le_refl _)
      generalize hd : Parser.declaration (4 * s.rest.length + 4) s = x at hproceeds
      cases hproceeds with
      | @ok d s' hmoved =>
          have hlength := hmoved.length
          obtain ⟨rs, hrs⟩ := ih s'.rest.length (by omega) s' (hmoved.stop ▸ hs) rfl
          refine ⟨_, fun fuel hfuel => .statement hnil (d := d) ?_ (hrs fuel (by omega))⟩
          rw [declaration_fuel hs hfuel (Nat.le_refl _), hd]
      | @error e s' hmoved _ =>
          have hmoved' := hmoved.resume hnil
          have hlength := hmoved'.length
          obtain ⟨rs, hrs⟩ := ih s'.resume.rest.length (by omega) s'.resume (hmoved'.stop ▸ hs) rfl
          refine ⟨_, fun fuel hfuel => .error hnil (e := e) ?_ (hrs fuel (by omega))⟩
          rw [declaration_fuel hs hfuel (Nat.le_refl _), hd]

namespace ReadIn

variable {fuel total : Nat} {s : TokenStream} {rs : List Round}

/-- There are no more rounds than tokens. -/
theorem length_le (h : ReadIn fuel total s rs) (hs : s.stop.kind = .eof) (hfuel : 4 * s.rest.length + 4 ≤ fuel) :
    rs.length ≤ s.rest.length := by
  induction h with
  | done h => exact Nat.zero_le _
  | statement hne hd h ih =>
      have hmoved := moved_declaration hs hfuel hd
      have hlength := hmoved.length
      have hle := ih (hmoved.stop ▸ hs) (by omega)
      rw [List.length_cons]
      omega
  | error hne hd h ih =>
      obtain ⟨hmoved, -⟩ := moved_resume hs hfuel hne hd
      have hlength := hmoved.length
      have hle := ih (hmoved.stop ▸ hs) (by omega)
      rw [List.length_cons]
      omega

/-- The first round begins where the stream does. -/
theorem start_eq {r : Round} (h : ReadIn fuel total s (r :: rs)) : r.start = total - s.rest.length := by
  cases h <;> rfl

/-- Each round begins where the one before it has ended. -/
theorem isChain (h : ReadIn fuel total s rs) : rs.IsChain fun r r' => r.next = r'.start := by
  induction h with
  | done h => exact .nil
  | @statement s s' d rs hne hd h ih | @error s s' e rs hne hd h ih =>
      cases rs with
      | nil => exact .singleton _
      | cons r rs => exact .cons_cons h.start_eq.symm ih

/-- **Every round moves forward.** -/
theorem forward {w : TokenStream} {m : Nat} (h : ReadIn fuel w.rest.length s rs) (hs : s.stop.kind = .eof)
    (hfuel : 4 * s.rest.length + 4 ≤ fuel) (hw : w.Moved m s) : ∀ r ∈ rs, r.Forward w := by
  induction h generalizing m with
  | done h => exact List.forall_mem_nil _
  | statement hne hd h ih =>
      have hmoved := moved_declaration hs hfuel hd
      have hlength := hmoved.length
      intro r hr
      rcases List.mem_cons.mp hr with rfl | hr
      · exact forward_of_ok hw hmoved
      · exact ih (hmoved.stop ▸ hs) (by omega) (hw.trans hmoved) r hr
  | error hne hd h ih =>
      obtain ⟨hmoved, -⟩ := moved_resume hs hfuel hne hd
      have hlength := hmoved.length
      intro r hr
      rcases List.mem_cons.mp hr with rfl | hr
      · exact forward_of_error hs hfuel hne hd hw
      · exact ih (hmoved.stop ▸ hs) (by omega) (hw.trans hmoved) r hr

/-- What the reading collects is what its rounds have read and reported, and none of its counts runs out. -/
theorem from_eq (h : ReadIn fuel total s rs) (hs : s.stop.kind = .eof) (hfuel : 4 * s.rest.length + 4 ≤ fuel) {n : Nat}
    (hn : s.rest.length ≤ n) (r : Reading) :
    ∃ r', Reading.from fuel n r s = some r' ∧
      r'.statements.toList = r.statements.toList ++ rs.filterMap Round.statement? ∧
      r'.errors.toList = r.errors.toList ++ rs.filterMap Round.error? := by
  induction h generalizing n r with
  | done h => exact ⟨r, Reading.from_of_nil h, (List.append_nil _).symm, (List.append_nil _).symm⟩
  | @statement s s' d rs hne hd h ih =>
      have hmoved := moved_declaration hs hfuel hd
      have hlength := hmoved.length
      obtain ⟨n, rfl⟩ : ∃ n', n = n' + 1 := ⟨n - 1, by omega⟩
      obtain ⟨r', hr', hstatements, herrors⟩ := ih (hmoved.stop ▸ hs) (by omega) (n := n) (by omega)
        { r with statements := r.statements.push d }
      refine ⟨r', (Reading.from_of_ok hne hd).trans hr', ?_, ?_⟩
      · rw [hstatements]
        simp [Round.statement?, Except.toOption]
      · rw [herrors]
        simp [List.filterMap_cons, Round.error?]
  | @error s s' e rs hne hd h ih =>
      obtain ⟨hmoved, -⟩ := moved_resume hs hfuel hne hd
      have hlength := hmoved.length
      obtain ⟨n, rfl⟩ : ∃ n', n = n' + 1 := ⟨n - 1, by omega⟩
      obtain ⟨r', hr', hstatements, herrors⟩ := ih (hmoved.stop ▸ hs) (by omega) (n := n) (by omega)
        { r with errors := r.errors.push e }
      refine ⟨r', (Reading.from_of_error hne hd).trans hr', ?_, ?_⟩
      · rw [hstatements]
        simp [List.filterMap_cons, Round.statement?, Except.toOption]
      · rw [herrors]
        simp [Round.error?]

end ReadIn

end TokenStream

/-! ## The order of rounds -/

/-- Rounds that move forward, each from where the one before it has ended, are in order. -/
theorem Round.pairwise_of_isChain {w : TokenStream} {rs : List Round} (hforward : ∀ r ∈ rs, r.Forward w)
    (hchain : rs.IsChain fun r r' => r.next = r'.start) : rs.Pairwise fun r r' => r.next ≤ r'.start := by
  induction rs with
  | nil => exact .nil
  | cons r rs ih =>
      cases hchain with
      | singleton => exact List.pairwise_singleton _ _
      | @cons_cons _ r₁ rs heq hchain =>
          have hrest := ih (fun r' hr' => hforward r' (List.mem_cons_of_mem _ hr')) hchain
          refine .cons (fun r' hr' => ?_) hrest
          rcases List.mem_cons.mp hr' with rfl | hr'
          · exact Nat.le_of_eq heq
          · have hlt := (hforward r₁ (by simp)).start_lt_next
            have hle := (List.pairwise_cons.mp hrest).1 r' hr'
            omega

/-- Errors that point at different tokens, in order, come in the order of the text. -/
theorem Round.errors_ordered {w : TokenStream} {rs : List Round} (hforward : ∀ r ∈ rs, r.Forward w)
    (hpositions : rs.Pairwise fun r r' => ∀ k k', r.ReportedAt w k → r'.ReportedAt w k' → k < k')
    (hw : Token.Ordered w.tokens) :
    (rs.filterMap Round.error?).Pairwise fun e e' => e.span.start < e'.span.start := by
  rw [List.pairwise_filterMap]
  refine hpositions.imp_of_mem fun {r r'} hr hr' hlt e he e' he' => ?_
  obtain ⟨k, hk⟩ := (hforward r hr).reported e (error?_eq_some.mp he)
  obtain ⟨k', hk'⟩ := (hforward r' hr').reported e' (error?_eq_some.mp he')
  obtain ⟨e₁, t, houtcome, ht, hspan⟩ := hk.span
  obtain ⟨e₂, t', houtcome', ht', hspan'⟩ := hk'.span
  obtain rfl := Except.error.inj (houtcome.symm.trans (error?_eq_some.mp he))
  obtain rfl := Except.error.inj (houtcome'.symm.trans (error?_eq_some.mp he'))
  have hbetween := hw.stop_le_start (hlt k k' hk hk') (List.getElem?_eq_some_iff.mp ht').1
  rw [hspan, hspan', ← Token.spanAt_of_getElem? ht, ← Token.spanAt_of_getElem? ht']
  omega

/-- **Reading a program moves forward, and its errors come in order.** Every list of tokens is read in rounds, the same
ones whatever depth and number of rounds are allowed, so that no count runs out that is high enough for the tokens. The
program is what the rounds have read, or its errors what they have reported. Every round takes a token at least, so that
there are no more of them than tokens in front of the first end. An error has the span of a token that its round has come
to, in front of where the next round begins; so the errors are reported at tokens further and further back, and if the
tokens come from a text, further and further back in it. -/
theorem Program.ofTokens_rounds (tokens : List Token) :
    let s := TokenStream.ofTokens tokens
    let length := (tokens.takeWhile (! ·.kind.isEof)).length
    ∃ rs : List Round,
      (∀ fuel, 4 * (length + 1) ≤ fuel → s.ReadIn fuel length rs ∧
        ∀ n, length ≤ n → ∃ r, Reading.from fuel n {} s = some r ∧
          r.statements.toList = rs.filterMap Round.statement? ∧ r.errors.toList = rs.filterMap Round.error?) ∧
      Program.ofTokens tokens = (if rs.filterMap Round.error? = [] then .ok (rs.filterMap Round.statement?)
        else .error (rs.filterMap Round.error?)) ∧
      (rs.filterMap Round.statement?).length + (rs.filterMap Round.error?).length ≤ length ∧
      (∀ r ∈ rs, r.Forward s) ∧
      (rs.IsChain fun r r' => r.next = r'.start) ∧
      (rs.Pairwise fun r r' => ∀ k k', r.ReportedAt s k → r'.ReportedAt s k' → k < k') ∧
      ∀ source, scan source = .ok tokens →
        (Program.errors tokens).Pairwise fun e e' => e.span.start < e'.span.start := by
  intro s length
  have hstop : s.stop.kind = .eof := TokenStream.stop_kind_ofTokens tokens
  obtain ⟨rs, hread⟩ := TokenStream.exists_readIn length s hstop
  have hin := hread (4 * (length + 1)) (Nat.le_refl _)
  have hforward : ∀ r ∈ rs, r.Forward s := hin.forward hstop (Nat.le_refl _) (.refl s)
  have hpositions : rs.Pairwise fun r r' => ∀ k k', r.ReportedAt s k → r'.ReportedAt s k' → k < k' := by
    refine (Round.pairwise_of_isChain hforward hin.isChain).imp_of_mem fun {r r'} _ hr' hle k k' hk hk' => ?_
    have hlt := (hforward r' hr').start_lt_next
    have hnext := (hforward r' hr').next_le
    exact hk.lt hk' hle (by omega)
  have hcollects : ∀ fuel, 4 * (length + 1) ≤ fuel → ∀ n, length ≤ n → ∃ r, Reading.from fuel n {} s = some r ∧
      r.statements.toList = rs.filterMap Round.statement? ∧ r.errors.toList = rs.filterMap Round.error? :=
    fun fuel hfuel n hn => (hread fuel hfuel).from_eq hstop hfuel hn {}
  obtain ⟨r, hr, hstatements, herrors⟩ := hcollects (4 * (length + 1)) (Nat.le_refl _) length (Nat.le_refl _)
  refine ⟨rs, fun fuel hfuel => ⟨hread fuel hfuel, hcollects fuel hfuel⟩, ?_, ?_, hforward, hin.isChain, hpositions,
    fun source h => ?_⟩
  · rw [Program.ofTokens_of_read hr, ← hstatements, ← herrors]
    simp only [Array.isEmpty_iff, Array.toList_eq_nil_iff]
  · rw [Round.length_filterMap]
    exact hin.length_le hstop (Nat.le_refl _)
  · rw [Program.errors_of_read hr, herrors]
    refine Round.errors_ordered hforward hpositions ?_
    rw [TokenStream.tokens_of_scan h]
    exact (scan_ordered h).1

end Lox
