import Lox.Proofs.Resumption

/-!
# Recovery from the errors of simple statements

A statement without braces ends at its semicolon, whether it can be read or not, and reading goes on behind it.

* `Attempt tokens` : the tokens are a simple statement, or would have to be one;
* `Attempt.reads` : an attempt is read alike by itself and in front of other tokens;
* `Program.errors_of_attempt` : the errors of an attempt come first, then those of the tokens behind it.

There is one exception. When a semicolon stands where an operand had to, the error takes it, and the search for the
next statement begins one token too late.
-/

namespace Lox

/-! ## What is left of a program -/

namespace TokenStream

theorem next_of_cons {s : TokenStream} {t : Token} {ts : List Token} (h : s.rest = t :: ts) : s.next = t := by
  unfold next
  rw [h, List.headD_cons]

theorem ofTokens_append_rest {as : List Token} (h : ∀ t ∈ as, t.kind.isEof = false) (bs : List Token) :
    (ofTokens (as ++ bs)).rest = as ++ (ofTokens bs).rest :=
  List.takeWhile_append_of_pos fun t ht => by rw [h t ht, Bool.not_false]

theorem ofTokens_append_stop {as bs : List Token} (h : ∀ t ∈ as, t.kind.isEof = false) (hbs : bs ≠ []) :
    (ofTokens (as ++ bs)).stop = (ofTokens bs).stop := by
  have hfind : as.find? (·.kind.isEof) = none := by
    simpa using h
  obtain ⟨b, hb⟩ : ∃ b, bs.getLast? = some b := ⟨_, List.getLast?_eq_some_getLast hbs⟩
  unfold ofTokens
  simp only [List.find?_append, hfind, Option.none_or, List.getLast?_append, hb, Option.some_or]

theorem not_eof_of_mem_ofTokens {t : Token} {bs : List Token} (h : t ∈ (ofTokens bs).rest) : t.kind.isEof = false := by
  have hnot := List.all_eq_true.mp List.all_takeWhile t h
  rwa [Bool.not_eq_true'] at hnot

theorem ofTokens_tokens {s : TokenStream} (hrest : ∀ t ∈ s.rest, t.kind.isEof = false) (hstop : s.stop.kind = .eof) :
    (ofTokens s.tokens).rest = s.rest ∧ (ofTokens s.tokens).stop = s.stop := by
  have heof : s.stop.kind.isEof = true := by rw [hstop]; rfl
  unfold tokens
  rw [ofTokens_append_rest hrest, ofTokens_append_stop hrest (List.cons_ne_nil _ _)]
  simp [ofTokens, heof]

theorem resume_rest_congr {s t : TokenStream} (h : s.rest = t.rest) : s.resume.rest = t.resume.rest := by
  cases hs : s.rest with
  | nil => rw [resume_of_nil hs, resume_of_nil (h ▸ hs), h]
  | cons t₀ ts => rw [resume_of_cons hs, resume_of_cons (h ▸ hs)]

theorem skipToStatement_of_semicolon {last : Token} (h : last.kind = .reserved .semicolon) (ts : List Token) :
    skipToStatement last ts = (last, ts) := by
  cases ts with
  | nil => rfl
  | cons t ts =>
      rw [skipToStatement, if_pos]
      simp [h, TokenKind.is]

end TokenStream

/-! ## Attempts -/

/-- The only semicolon of these tokens comes last and they do not hold the end. The first of them begins no function,
class, block, branch or loop, and no statement seems to begin at any other. -/
structure Attempt (tokens : List Token) : Prop where
  close : ∃ t ∈ tokens.getLast?, t.kind = .reserved .semicolon
  once : ∀ t ∈ tokens.dropLast, t.kind ≠ .reserved .semicolon
  not_eof : ∀ t ∈ tokens, t.kind.isEof = false
  head : ∀ t ∈ tokens.head?, ∀ r ∈ [Reserved.fun, .class, .if, .while, .for, .leftBrace], t.kind ≠ .reserved r
  inner : ∀ t ∈ tokens.tail, TokenStream.startsStatement t.kind = false

namespace Attempt

variable {as bs u ts : List Token} {t : Token} {s : TokenStream} {n m : Nat}

theorem ne_nil (h : Attempt as) : as ≠ [] := by
  rintro rfl
  obtain ⟨t, ht, -⟩ := h.close
  cases ht

/-- A semicolon ends an attempt. -/
theorem semicolon_iff (h : Attempt as) (hu : (t :: u) <:+ as) : t.kind = .reserved .semicolon ↔ u = [] := by
  obtain ⟨v, rfl⟩ := hu
  constructor
  · intro hkind
    refine Decidable.byContradiction fun hne => ?_
    refine h.once t ?_ hkind
    rw [List.dropLast_append_cons, List.dropLast_cons_of_ne_nil hne]
    exact List.mem_append_right v List.mem_cons_self
  · rintro rfl
    obtain ⟨close, hlast, hclose⟩ := h.close
    rw [List.getLast?_concat] at hlast
    obtain rfl := Option.mem_some.mp hlast
    exact hclose

theorem not_startsStatement (h : Attempt as) {t₀ : Token} (hu : (t₀ :: t :: u) <:+ as) :
    TokenStream.startsStatement t.kind = false := by
  obtain ⟨v, rfl⟩ := hu
  refine h.inner t ?_
  cases v with
  | nil => exact List.mem_cons_self
  | cons t₁ v => exact List.mem_append_right v (List.mem_cons_of_mem t₀ List.mem_cons_self)

/-- The search for a statement leaves an attempt behind. -/
theorem skipToStatement (h : Attempt as) (hu : (t :: u) <:+ as) (ts : List Token) :
    (TokenStream.skipToStatement t (u ++ ts)).2 = ts := by
  induction u generalizing t with
  | nil => rw [List.nil_append, TokenStream.skipToStatement_of_semicolon ((h.semicolon_iff hu).mpr rfl)]
  | cons t₁ u ih =>
      have hsemicolon : ¬ t.kind = .reserved .semicolon := mt (h.semicolon_iff hu).mp (List.cons_ne_nil _ _)
      have his : t.kind.is .semicolon = false := by
        refine Bool.eq_false_iff.mpr fun hstarts => hsemicolon ?_
        exact TokenStream.kind_of_starts (s := ⟨t, [t], t⟩) hstarts
      rw [List.cons_append, TokenStream.skipToStatement, his, h.not_startsStatement hu]
      exact ih ((List.suffix_cons t _).trans hu)

/-- An error within an attempt lets reading go on right behind it. -/
theorem resume_rest (h : Attempt as) (hu : u <:+ as) (hne : u ≠ []) (hs : s.rest = u ++ ts) : s.resume.rest = ts := by
  obtain ⟨t, u, rfl⟩ := List.exists_cons_of_ne_nil hne
  rw [List.cons_append] at hs
  rw [TokenStream.resume_of_cons hs]
  exact h.skipToStatement hu ts

def likeness (h : Attempt as) (bs : List Token) : Likeness where
  alike l s t := ∃ u, u <:+ as ∧ u ≠ [] ∧ u.length = l ∧ s.rest = u ++ (TokenStream.ofTokens bs).rest ∧ t.rest = u ∧
    s.stop = (TokenStream.ofTokens (as ++ bs)).stop
  behind _ s t := s.rest = (TokenStream.ofTokens bs).rest ∧ t.rest = [] ∧
    s.stop = (TokenStream.ofTokens (as ++ bs)).stop
  next_eq := by
    rintro l s t ⟨u, -, hne, -, hs, ht, -⟩
    obtain ⟨t₀, u, rfl⟩ := List.exists_cons_of_ne_nil hne
    rw [TokenStream.next_of_cons hs, TokenStream.next_of_cons ht]
  pos := by
    rintro l s t ⟨u, -, hne, rfl, -⟩ -
    exact List.length_pos_iff.mpr hne
  tail := by
    rintro l s t ⟨u, hu, hne, rfl, hs, ht, hstop⟩ hkind
    obtain ⟨t₀, u, rfl⟩ := List.exists_cons_of_ne_nil hne
    rw [TokenStream.next_of_cons hs] at hkind
    refine ⟨u, (List.suffix_cons t₀ u).trans hu, mt (h.semicolon_iff hu).mpr hkind, rfl, ?_, ?_, ?_⟩ <;>
      simp only [TokenStream.tail, hs, ht, List.cons_append, hstop]
  tail_semicolon := by
    rintro l s t ⟨u, hu, hne, rfl, hs, ht, hstop⟩ hkind
    obtain ⟨t₀, u, rfl⟩ := List.exists_cons_of_ne_nil hne
    rw [TokenStream.next_of_cons hs] at hkind
    obtain rfl := (h.semicolon_iff hu).mp hkind
    refine ⟨?_, ?_, ?_⟩ <;> simp only [TokenStream.tail, hs, ht, List.cons_append, List.nil_append, hstop]

theorem ofTokens_rest (h : Attempt as) : (TokenStream.ofTokens as).rest = as := by
  have happend := TokenStream.ofTokens_append_rest h.not_eof []
  rwa [List.append_nil, show (TokenStream.ofTokens []).rest = [] from rfl, List.append_nil] at happend

/-- An attempt is read alike by itself and in front of other tokens. -/
theorem reads (h : Attempt as) (bs : List Token) (hn : 4 * as.length + 4 ≤ n) (hm : 4 * as.length + 4 ≤ m) :
    (h.likeness bs).Results (h.likeness bs).behind as.length
      (Parser.declaration n (TokenStream.ofTokens (as ++ bs))) (Parser.declaration m (TokenStream.ofTokens as)) := by
  have hrest := TokenStream.ofTokens_append_rest h.not_eof bs
  have halike : (h.likeness bs).alike as.length (TokenStream.ofTokens (as ++ bs)) (TokenStream.ofTokens as) :=
    ⟨as, List.suffix_refl as, h.ne_nil, rfl, hrest, h.ofTokens_rest, rfl⟩
  refine Likeness.simple halike (h.head _ ?_) hn hm
  obtain ⟨t, u, rfl⟩ := List.exists_cons_of_ne_nil h.ne_nil
  rw [TokenStream.next_of_cons hrest]
  rfl

/-- The errors that a reading adds when it has left an attempt behind. -/
theorem adds_behind (h : Attempt as) {i : Nat} (hrest : s.rest = (TokenStream.ofTokens bs).rest)
    (hstop : s.stop = (TokenStream.ofTokens (as ++ bs)).stop) (hn : 4 * s.rest.length + 4 ≤ n)
    (hi : s.rest.length ≤ i) : Reading.Adds n i s (Program.errors bs) := by
  refine Reading.adds_errors bs hrest (fun hne => hstop.trans ?_) hn hi
  refine TokenStream.ofTokens_append_stop h.not_eof ?_
  rintro rfl
  exact hne hrest

/-- The errors that it adds when the search for the next statement begins behind the attempt. -/
theorem adds_resume (h : Attempt as) {i : Nat} (hrest : s.rest = (TokenStream.ofTokens bs).rest)
    (hstop : s.stop = (TokenStream.ofTokens (as ++ bs)).stop) (hn : 4 * s.rest.length + 4 ≤ n)
    (hi : s.rest.length ≤ i) :
    Reading.Adds n i s.resume (Program.errors (TokenStream.ofTokens bs).resume.tokens) := by
  have hsuffix := TokenStream.resume_rest_suffix (TokenStream.ofTokens bs)
  have hkind := TokenStream.stop_kind_ofTokens bs
  have hlength := (TokenStream.resume_rest_suffix s).length_le
  obtain ⟨htokens, htokens'⟩ := TokenStream.ofTokens_tokens (s := (TokenStream.ofTokens bs).resume)
    (fun t ht => TokenStream.not_eof_of_mem_ofTokens (hsuffix.mem ht)) (by rw [TokenStream.resume_stop, hkind])
  refine Reading.adds_errors _ ?_ (fun hne => ?_) (by omega) (by omega)
  · rw [htokens, TokenStream.resume_rest_congr hrest]
  · rw [htokens', TokenStream.resume_stop, TokenStream.resume_stop, hstop]
    refine TokenStream.ofTokens_append_stop h.not_eof ?_
    rintro rfl
    exact hne (TokenStream.resume_rest_congr hrest)

end Attempt

/-! ## Errors -/

/-- **The errors of an attempt come first, and then those of all that follows it.** An error that takes the semicolon
of the attempt makes the reading look for the next statement behind the first token that follows. -/
theorem Program.errors_of_attempt {as : List Token} (h : Attempt as) (bs : List Token) :
    Program.errors (as ++ bs) = Program.errors as ++
      Program.errors (if (Program.errors as).any SyntaxError.missesOperand then (TokenStream.ofTokens bs).resume.tokens
        else bs) := by
  have hlength := List.length_pos_iff.mpr h.ne_nil
  have hrest := TokenStream.ofTokens_append_rest h.not_eof bs
  have hne : (TokenStream.ofTokens (as ++ bs)).rest ≠ [] := hrest ▸ List.append_ne_nil_of_left_ne_nil h.ne_nil _
  have hne' : (TokenStream.ofTokens as).rest ≠ [] := h.ofTokens_rest.symm ▸ h.ne_nil
  obtain ⟨i, hi⟩ : ∃ i, (TokenStream.ofTokens (as ++ bs)).rest.length = i + 1 :=
    Nat.exists_eq_add_one.mpr (List.length_pos_iff.mpr hne)
  obtain ⟨j, hj⟩ : ∃ j, (TokenStream.ofTokens as).rest.length = j + 1 :=
    Nat.exists_eq_add_one.mpr (List.length_pos_iff.mpr hne')
  have hlengths : i + 1 = as.length + (TokenStream.ofTokens bs).rest.length := by
    rw [← hi, hrest, List.length_append]
  have hread := h.reads (n := 4 * (i + 1 + 1)) (m := 4 * (j + 1 + 1)) bs (by omega)
    (by rw [← hj, h.ofTokens_rest]; omega)
  generalize hs : Parser.declaration (4 * (i + 1 + 1)) (TokenStream.ofTokens (as ++ bs)) = x at hread
  generalize ht : Parser.declaration (4 * (j + 1 + 1)) (TokenStream.ofTokens as) = y at hread
  -- the attempt takes one round of both readings; alone it leaves nothing, and so at most the one error
  cases hread with
  | ok d hl hbehind =>
      obtain ⟨hX, hnil, hstop⟩ := hbehind
      have halone := Program.errors_of_adds hj (Reading.adds_of_ok hne' ht (Reading.adds_of_nil hnil))
      have hboth := h.adds_behind (n := 4 * (i + 1 + 1)) (i := i) hX hstop (by rw [hX]; omega) (by rw [hX]; omega)
      rw [halone, Program.errors_of_adds hi (Reading.adds_of_ok hne hs hboth)]
      rfl
  | @error e _ s₁ t₁ he halike =>
      obtain ⟨u, hu, hune, -, hX, hnil, hstop⟩ := halike
      have hX' := h.resume_rest hu hune hX
      have hnil' := h.resume_rest hu hune (hnil.trans (List.append_nil u).symm)
      have halone := Program.errors_of_adds hj (Reading.adds_of_error hne' ht (Reading.adds_of_nil hnil'))
      have hboth := h.adds_behind (n := 4 * (i + 1 + 1)) (i := i) hX' ((TokenStream.resume_stop _).trans hstop)
        (by rw [hX']; omega) (by rw [hX']; omega)
      rw [halone, Program.errors_of_adds hi (Reading.adds_of_error hne hs hboth)]
      simp [he]
  | missing he hbehind =>
      obtain ⟨hX, hnil, hstop⟩ := hbehind
      have hnil' := (TokenStream.resume_of_nil hnil).symm ▸ hnil
      have halone := Program.errors_of_adds hj (Reading.adds_of_error hne' ht (Reading.adds_of_nil hnil'))
      have hboth := h.adds_resume (n := 4 * (i + 1 + 1)) (i := i) hX hstop (by rw [hX]; omega) (by rw [hX]; omega)
      rw [halone, Program.errors_of_adds hi (Reading.adds_of_error hne hs hboth)]
      simp [he]

/-- `print;` at the given offset of the first line, without what has to be printed. -/
def emptyPrint (start : Nat) : List Token :=
  [{ kind := .reserved .print, span := ⟨start, start + 5, 1, start + 1⟩ },
    { kind := .reserved .semicolon, span := ⟨start + 5, start + 6, 1, start + 6⟩ }]

theorem attempt_emptyPrint (start : Nat) : Attempt (emptyPrint start) := by
  refine ⟨⟨_, rfl, rfl⟩, ?_, ?_, ?_, ?_⟩ <;> simp [emptyPrint, TokenKind.isEof, TokenStream.startsStatement]

/-- Both errors are reported where the first leaves its semicolon in place, as in `var = ( ;`. -/
theorem Program.errors_of_attempt_var :
    let as : List Token :=
      [.reserved .var, .reserved .equal, .reserved .leftParen, .reserved .semicolon].map ({ kind := · })
    Attempt as ∧ Program.errors (as ++ emptyPrint 9) =
      [.unexpected "identifier" "=" {}, .unexpected "expression" ";" ⟨14, 15, 1, 15⟩] := by
  intro as
  have h : Attempt as := ⟨⟨_, rfl, rfl⟩, by decide, by decide, by decide, by decide⟩
  exact ⟨h, (Program.errors_of_attempt h (emptyPrint 9)).trans (by decide +kernel)⟩

/-- The error of the second of two statements is lost when the first takes its semicolon. -/
theorem Program.errors_of_emptyPrint :
    Attempt (emptyPrint 0) ∧
      Program.errors (emptyPrint 0 ++ emptyPrint 6) = [.unexpected "expression" ";" ⟨5, 6, 1, 6⟩] ∧
      Program.errors (emptyPrint 0) ++ Program.errors (emptyPrint 6) =
        [.unexpected "expression" ";" ⟨5, 6, 1, 6⟩, .unexpected "expression" ";" ⟨11, 12, 1, 12⟩] :=
  ⟨attempt_emptyPrint 0, by decide +kernel, by decide +kernel⟩

end Lox
