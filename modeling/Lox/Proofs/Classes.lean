import Lox.Proofs.Recovery

/-!
# Classes are refused as a whole

The declaration of a class costs one error, whatever its body holds, and reading goes on behind its closing brace.

* `BalancedBraces tokens` : every closing brace stands behind an opening one of its own, and none stays open;
* `Parser.skipClassBody_append` : how deep a body is nested where some of it has been passed over;
* `Parser.declaration_class` : a class is passed over up to the brace that closes it;
* `Program.ofTokens_class` : the errors of a program that begins with a class.
-/

namespace Lox

/-! ## Braces -/

/-- The tokens open as many braces as they close, and never close one that they have not opened. -/
structure BalancedBraces (ts : List Token) : Prop where
  opened : ∀ us, us <+: ts → us.countP (·.kind.is .rightBrace) ≤ us.countP (·.kind.is .leftBrace)
  closed : ts.countP (·.kind.is .rightBrace) = ts.countP (·.kind.is .leftBrace)

theorem balancedBraces_iff {ts : List Token} :
    BalancedBraces ts ↔ (∀ n ≤ ts.length,
      (ts.take n).countP (·.kind.is .rightBrace) ≤ (ts.take n).countP (·.kind.is .leftBrace)) ∧
      ts.countP (·.kind.is .rightBrace) = ts.countP (·.kind.is .leftBrace) := by
  constructor
  · intro h
    exact ⟨fun n _ => h.opened _ (List.take_prefix n ts), h.closed⟩
  · rintro ⟨hopened, hclosed⟩
    refine ⟨fun us hus => ?_, hclosed⟩
    rw [List.prefix_iff_eq_take.mp hus]
    exact hopened us.length hus.length_le

instance (ts : List Token) : Decidable (BalancedBraces ts) :=
  decidable_of_iff _ balancedBraces_iff.symm

theorem TokenKind.is_iff {k : TokenKind} {r : Reserved} : k.is r = true ↔ k = .reserved r := by
  cases k with
  | reserved r' => simp [TokenKind.is, eq_comm]
  | _ => simp [TokenKind.is]

theorem TokenKind.isEof_iff {k : TokenKind} : k.isEof = true ↔ k = .eof := by
  cases k <;> simp [TokenKind.isEof]

namespace Parser

variable {us : List Token}

/-- The search for the body of a class passes over everything in front of the first opening brace. -/
theorem skipToBrace_append (h : ∀ t ∈ us, t.kind.is .leftBrace = false) (last : Token) {t : Token}
    (ht : t.kind.is .leftBrace = true) (rest : List Token) :
    ∃ last', skipToBrace last (us ++ t :: rest) = (last', t :: rest) := by
  induction us generalizing last with
  | nil => exact ⟨last, by rw [List.nil_append, skipToBrace, if_pos ht]⟩
  | cons u us ih =>
      have hu : ¬ u.kind.is .leftBrace = true := by rw [h u List.mem_cons_self]; exact Bool.false_ne_true
      obtain ⟨last', heq⟩ := ih (fun v hv => h v (List.mem_cons_of_mem u hv)) u
      exact ⟨last', by rw [List.cons_append, skipToBrace, if_neg hu, heq]⟩

/-- Where none of the braces passed over closes the body, the depth has grown by those opened and shrunk by those
closed. -/
theorem skipClassBody_append (depth : Nat)
    (h : ∀ vs, vs <+: us → vs.countP (·.kind.is .rightBrace) < depth + vs.countP (·.kind.is .leftBrace))
    (last : Token) (rest : List Token) :
    ∃ last', skipClassBody last depth (us ++ rest) = skipClassBody last'
      (depth + us.countP (·.kind.is .leftBrace) - us.countP (·.kind.is .rightBrace)) rest := by
  induction us generalizing last depth with
  | nil => exact ⟨last, rfl⟩
  | cons t us ih =>
      have hcons : ∀ vs, vs <+: us → (t :: vs).countP (·.kind.is .rightBrace) <
          depth + (t :: vs).countP (·.kind.is .leftBrace) := fun vs hvs => h _ (List.cons_prefix_cons.mpr ⟨rfl, hvs⟩)
      simp only [List.countP_cons] at hcons ⊢
      rw [List.cons_append, skipClassBody]
      by_cases hopen : t.kind.is .leftBrace = true
      · have hclose : ¬ t.kind.is .rightBrace = true := by simp [TokenKind.is_iff.mp hopen, TokenKind.is]
        simp only [hopen, hclose, if_true, Bool.false_eq_true, if_false] at hcons ⊢
        obtain ⟨last', heq⟩ := ih (depth + 1) (fun vs hvs => by have := hcons vs hvs; omega) t
        exact ⟨last', by rw [heq]; congr 1; omega⟩
      · rw [if_neg hopen]
        by_cases hclose : t.kind.is .rightBrace = true
        · simp only [hopen, hclose, if_true, Bool.false_eq_true, if_false] at hcons ⊢
          -- the prefix that ends with this brace shows that it does not close the body
          have hdeep := hcons [] List.nil_prefix
          simp only [List.countP_nil] at hdeep
          rw [if_neg (by omega)]
          obtain ⟨last', heq⟩ := ih (depth - 1) (fun vs hvs => by have := hcons vs hvs; omega) t
          exact ⟨last', by rw [heq]; congr 1; omega⟩
        · simp only [hopen, hclose, Bool.false_eq_true, if_false, Nat.add_zero] at hcons ⊢
          exact ih depth hcons t

/-- A body is passed over from its opening brace to the one that closes it. -/
theorem skipClassBody_body (h : BalancedBraces us) {opening closing : Token} (hopen : opening.kind.is .leftBrace = true)
    (hclose : closing.kind.is .rightBrace = true) (last : Token) (rest : List Token) :
    ∃ last', skipClassBody last 0 (opening :: (us ++ closing :: rest)) = (last', closing :: rest) := by
  obtain ⟨last', heq⟩ := skipClassBody_append 1 (fun vs hvs => Nat.lt_one_add_iff.mpr (h.opened vs hvs)) opening
    (closing :: rest)
  refine ⟨last', ?_⟩
  have hnot : ¬ closing.kind.is .leftBrace = true := by simp [TokenKind.is_iff.mp hclose, TokenKind.is]
  rw [skipClassBody, if_pos hopen, Nat.zero_add, heq, h.closed, Nat.add_sub_cancel, skipClassBody, if_neg hnot,
    if_pos hclose, if_pos (Nat.le_refl 1)]

/-- A class is refused where it begins, and the stream is left at the brace that closes its body. -/
theorem declaration_class {s : TokenStream} {start opening closing : Token} {heading body rest : List Token}
    (hs : s.rest = start :: (heading ++ opening :: (body ++ closing :: rest))) (hstart : start.kind = .reserved .class)
    (hheading : ∀ t ∈ heading, t.kind ≠ .reserved .leftBrace) (hopen : opening.kind = .reserved .leftBrace)
    (hbody : BalancedBraces body) (hclose : closing.kind = .reserved .rightBrace) {n : Nat} (hn : 0 < n) :
    ∃ last, declaration n s = .error (.error (.unsupportedClass start.span)) { s with last, rest := closing :: rest } := by
  obtain ⟨n, rfl⟩ : ∃ k, n = k + 1 := ⟨n - 1, by omega⟩
  have hnext : s.next = start := TokenStream.next_of_cons hs
  have htail : s.tail = { s with last := start, rest := heading ++ opening :: (body ++ closing :: rest) } := by
    simp only [TokenStream.tail, hs]
  obtain ⟨before, hbefore⟩ := skipToBrace_append
    (fun t ht => Bool.eq_false_iff.mpr (mt TokenKind.is_iff.mp (hheading t ht))) start (TokenKind.is_iff.mpr hopen)
    (body ++ closing :: rest)
  obtain ⟨last, hlast⟩ := skipClassBody_body hbody (TokenKind.is_iff.mpr hopen) (TokenKind.is_iff.mpr hclose) before rest
  refine ⟨last, ?_⟩
  rw [declaration, apply_bind_of_ok (peek_apply s), hnext, hstart]
  dsimp only
  unfold classDeclaration
  rw [apply_bind_of_ok (take_apply s), hnext, htail, apply_bind_of_ok (apply_modify _ _)]
  simp only [hbefore, hlast]
  rfl

end Parser

/-! ## Reading on -/

/-- The search for the next statement takes one token and stops at once if a statement seems to begin behind it. -/
theorem TokenStream.resume_rest_of_starts {s : TokenStream} {t₀ : Token} {rest : List Token} (hs : s.rest = t₀ :: rest)
    (hrest : ∀ t ∈ rest.head?, startsStatement t.kind = true) : s.resume.rest = rest := by
  rw [resume_of_cons hs]
  cases rest with
  | nil => rfl
  | cons t rest =>
      have hstop : (t₀.kind.is .semicolon || startsStatement t.kind) = true := by
        rw [hrest t rfl, Bool.or_true]
      dsimp only
      rw [skipToStatement, if_pos hstop]

theorem TokenStream.head?_ofTokens_rest {tokens : List Token} (h : ∀ t ∈ tokens.head?, t.kind ≠ .eof) :
    (TokenStream.ofTokens tokens).rest.head? = tokens.head? := by
  cases tokens with
  | nil => rfl
  | cons t rest =>
      have hnot : t.kind.isEof = false := Bool.eq_false_iff.mpr (mt TokenKind.isEof_iff.mp (h t rfl))
      simp [TokenStream.ofTokens, hnot]

theorem Program.ofTokens_of_errors {tokens : List Token} {e : SyntaxError} {es : List SyntaxError}
    (h : Program.errors tokens = e :: es) : Program.ofTokens tokens = .error (e :: es) := by
  unfold Program.errors at h
  cases hread : Program.ofTokens tokens with
  | ok p => rw [hread] at h; cases h
  | error es' => rw [hread] at h; exact congrArg Except.error h

/-- **A class costs one error, at its first token, and then come the errors of what follows it.** What follows begins
like a statement, so that the search for one loses nothing of it. -/
theorem Program.ofTokens_class {start opening closing : Token} {heading body rest : List Token}
    (hstart : start.kind = .reserved .class) (hheading : ∀ t ∈ heading, t.kind ≠ .reserved .leftBrace)
    (hopen : opening.kind = .reserved .leftBrace) (hbody : BalancedBraces body)
    (hclose : closing.kind = .reserved .rightBrace) (hend : ∀ t ∈ heading ++ body, t.kind ≠ .eof)
    (hrest : ∀ t ∈ rest.head?, ∃ r ∈ [Reserved.class, .fun, .var, .for, .if, .while, .print, .return],
      t.kind = .reserved r) :
    Program.ofTokens (start :: heading ++ opening :: body ++ closing :: rest) =
      .error (.unsupportedClass start.span :: Program.errors rest) := by
  apply Program.ofTokens_of_errors
  have hnot : ∀ t ∈ start :: heading ++ opening :: body ++ [closing], t.kind.isEof = false := by
    intro t ht
    refine Bool.eq_false_iff.mpr (mt TokenKind.isEof_iff.mp ?_)
    simp only [List.cons_append, List.append_assoc, List.mem_cons, List.mem_append, List.not_mem_nil, or_false] at ht
    rcases ht with rfl | ht | rfl | ht | rfl
    · rw [hstart]; exact TokenKind.reserved_ne_eof _
    · exact hend t (List.mem_append_left _ ht)
    · rw [hopen]; exact TokenKind.reserved_ne_eof _
    · exact hend t (List.mem_append_right _ ht)
    · rw [hclose]; exact TokenKind.reserved_ne_eof _
  have hwhole : start :: heading ++ opening :: body ++ closing :: rest =
      (start :: heading ++ opening :: body ++ [closing]) ++ rest := by simp
  rw [hwhole]
  generalize hs : TokenStream.ofTokens ((start :: heading ++ opening :: body ++ [closing]) ++ rest) = s
  have hsrest : s.rest = start :: (heading ++ opening :: (body ++ closing :: (TokenStream.ofTokens rest).rest)) := by
    rw [← hs, TokenStream.ofTokens_append_rest hnot]
    simp
  have hne : s.rest ≠ [] := by
    rw [hsrest]
    exact List.cons_ne_nil _ _
  have hlength := congrArg List.length hsrest
  simp only [List.length_cons, List.length_append] at hlength
  obtain ⟨rounds, hrounds⟩ : ∃ k, s.rest.length = k + 1 := ⟨_, hlength⟩
  obtain ⟨last, hdecl⟩ := Parser.declaration_class hsrest hstart hheading hopen hbody hclose
    (n := 4 * (rounds + 1 + 1)) (by omega)
  have hresume := TokenStream.resume_rest_of_starts
    (s := { s with last, rest := closing :: (TokenStream.ofTokens rest).rest }) rfl ?_
  · refine Program.errors_of_adds (show _ = rounds + 1 by rw [hs, hrounds]) ?_
    rw [hs]
    refine Reading.adds_of_error hne hdecl ?_
    refine Reading.adds_errors rest hresume (fun hrest => ?_) (by rw [hresume]; omega) (by rw [hresume]; omega)
    rw [TokenStream.resume_stop, ← hs]
    refine TokenStream.ofTokens_append_stop hnot ?_
    rintro rfl
    exact hrest hresume
  · intro t ht
    have hne : ∀ t ∈ rest.head?, t.kind ≠ .eof := by
      intro u hu
      obtain ⟨r, -, hkind⟩ := hrest u hu
      rw [hkind]
      exact TokenKind.reserved_ne_eof r
    rw [TokenStream.head?_ofTokens_rest hne] at ht
    obtain ⟨r, hr, hkind⟩ := hrest t ht
    rw [hkind]
    exact decide_eq_true hr

/-- A class with blocks, semicolons and the beginnings of other statements in its body, in front of `print;`. -/
theorem Program.ofTokens_class_nestedBlocks :
    let heading : List Token := [.identifier "A", .reserved .less, .identifier "B"].map ({ kind := · })
    let body : List Token :=
      [.identifier "f", .reserved .leftParen, .reserved .rightParen, .reserved .leftBrace, .reserved .leftBrace,
        .reserved .rightBrace, .reserved .semicolon, .reserved .rightBrace, .reserved .semicolon, .reserved .class,
        .reserved .leftBrace, .reserved .rightBrace, .reserved .for].map ({ kind := · })
    BalancedBraces body ∧
      Program.ofTokens (⟨.reserved .class, ⟨0, 5, 1, 1⟩⟩ :: heading ++ ⟨.reserved .leftBrace, {}⟩ :: body ++
        ⟨.reserved .rightBrace, {}⟩ :: emptyPrint 60) =
      .error [.unsupportedClass ⟨0, 5, 1, 1⟩, .unexpected "expression" ";" ⟨65, 66, 1, 66⟩] := by
  intro heading body
  have hbody : BalancedBraces body := by decide
  have hrest : Program.errors (emptyPrint 60) = [.unexpected "expression" ";" ⟨65, 66, 1, 66⟩] := by decide +kernel
  refine ⟨hbody, ?_⟩
  rw [← hrest]
  exact Program.ofTokens_class rfl (by decide) rfl hbody rfl (by decide) (by decide)

end Lox
