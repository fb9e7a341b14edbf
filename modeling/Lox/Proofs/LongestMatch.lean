import Lox.Proofs.Positions

/-!
# The longest match

Scanning is defined by loops that look one or two characters ahead. What they come to is said here without them: skip
a gap, take the longest lexeme that stands there, and go on behind it.

* `Lexeme` : the lexical grammar;
* `Lexeme.Longest` : no longer lexeme begins at the same place;
* `Cursor.lexeme_of_longest` : this is the one that is read;
* `Consumes`, `Concludes` : lexemes are taken one after the other, up to the end or to what begins no lexeme;
* `scan_longestMatch` : scanning does just that.
-/

namespace Lox

open Cursor (startsWord continuesWord symbol?)

/-! ## The lexical grammar -/

inductive Lexeme : TokenKind → List Char → Prop where
  | reserved (r : Reserved) : Lexeme (.reserved r) r.text.toList
  | string (content : List Char) (hcontent : '"' ∉ content) :
      Lexeme (.string (String.ofList content)) ('"' :: (content ++ ['"']))
  | number (whole fraction : List Char) (hsome : whole ≠ []) (hwhole : ∀ c ∈ whole, c.isDigit = true)
      (hfraction : ∀ c ∈ fraction, c.isDigit = true) :
      Lexeme (.number (Number.read whole fraction)) (Number.spelling whole fraction)
  | identifier (c : Char) (cs : List Char) (hc : startsWord c = true) (hcs : ∀ d ∈ cs, continuesWord d = true)
      (hword : ∀ r ∈ Reserved.keywords, r.text.toList ≠ c :: cs) :
      Lexeme (.identifier (String.ofList (c :: cs))) (c :: cs)

/-- No longer lexeme begins at the same place. -/
structure Lexeme.Longest (kind : TokenKind) (lexeme behind : List Char) : Prop where
  isLexeme : Lexeme kind lexeme
  longest : ∀ kind' longer, Lexeme kind' longer → longer <+: lexeme ++ behind → longer.length ≤ lexeme.length

/-! ### First characters -/

namespace Cursor

/-- Keywords are spelt like identifiers. -/
theorem text_keyword {r : Reserved} (hr : r ∈ Reserved.keywords) :
    ∃ c cs, r.text.toList = c :: cs ∧ startsWord c = true ∧ ∀ d ∈ cs, continuesWord d = true := by
  have hall : ∀ r ∈ Reserved.keywords,
      (r.text.toList.head?.any startsWord && r.text.toList.all continuesWord) = true := by
    decide
  have h := hall r hr
  cases htext : r.text.toList with
  | nil => exact absurd htext r.text_ne_nil
  | cons c cs =>
      rw [htext] at h
      simp only [List.head?_cons, Option.any_some, List.all_cons, Bool.and_eq_true, List.all_eq_true] at h
      exact ⟨c, cs, rfl, h.1, h.2.2⟩

/-- What begins a symbol begins no word and no number. -/
theorem symbol?_plain {c : Char} {next : Option Char} {r : Reserved} (h : symbol? c next = some r) :
    startsWord c = false ∧ c.isDigit = false ∧ c ≠ '"' := by
  unfold symbol? at h
  dsimp only at h
  split at h
  case h_16 => cases h
  all_goals decide

theorem symbol?_of_startsWord {c : Char} (h : startsWord c = true) (next : Option Char) : symbol? c next = none := by
  cases hsymbol : symbol? c next with
  | none => rfl
  | some r =>
      rw [(symbol?_plain hsymbol).1] at h
      cases h

theorem symbol?_of_isDigit {c : Char} (h : c.isDigit = true) (next : Option Char) : symbol? c next = none := by
  cases hsymbol : symbol? c next with
  | none => rfl
  | some r =>
      rw [(symbol?_plain hsymbol).2.1] at h
      cases h

/-- A digit begins no word. -/
theorem startsWord_of_isDigit {c : Char} (h : c.isDigit = true) : startsWord c = false := by
  have hrange : 48 ≤ c.toNat ∧ c.toNat ≤ 57 := by
    simpa [Char.isDigit, UInt32.le_iff_toNat_le] using h
  have hne : c ≠ '_' := by
    rintro rfl
    exact absurd hrange (by decide)
  have halpha : c.isAlpha = false := by
    unfold Char.isAlpha Char.isUpper Char.isLower
    simp only [UInt32.le_iff_toNat_le, ge_iff_le, Bool.or_eq_false_iff, Bool.and_eq_false_iff, decide_eq_false_iff_not]
    show ¬(65 ≤ c.toNat ∧ c.toNat ≤ 90) ∧ (¬97 ≤ c.toNat ∨ ¬c.toNat ≤ 122)
    omega
  have hascii : ¬0x80 ≤ c.toNat := by omega
  simp [startsWord, isLetter, halpha, hascii, hne]

theorem ne_quote_of_isDigit {c : Char} (h : c.isDigit = true) : c ≠ '"' := by
  rintro rfl
  cases h

theorem ne_quote_of_startsWord {c : Char} (h : startsWord c = true) : c ≠ '"' := by
  rintro rfl
  revert h
  decide

/-- A symbol is read as itself where no longer one fits. -/
theorem symbol?_of_longest {r : Reserved} (hr : r ∉ Reserved.keywords) (behind : List Char)
    (hlongest : ∀ r' : Reserved, r'.text.toList <+: r.text.toList ++ behind →
      r'.text.toList.length ≤ r.text.toList.length) :
    ∃ c cs, r.text.toList = c :: cs ∧ symbol? c (cs ++ behind).head? = some r := by
  have hnext : ∀ r' : Reserved, r'.text.toList = r.text.toList ++ ['='] → behind.head? ≠ some '=' := by
    intro r' htext hhead
    obtain ⟨ds, rfl⟩ := List.head?_eq_some_iff.mp hhead
    have hle := hlongest r' ⟨ds, by rw [htext]; simp⟩
    rw [htext, List.length_append] at hle
    exact Nat.not_succ_le_self _ hle
  cases r with
  | equal => exact ⟨'=', [], rfl, by simp [symbol?, hnext .equalEqual rfl]⟩
  | bang => exact ⟨'!', [], rfl, by simp [symbol?, hnext .bangEqual rfl]⟩
  | less => exact ⟨'<', [], rfl, by simp [symbol?, hnext .lessEqual rfl]⟩
  | greater => exact ⟨'>', [], rfl, by simp [symbol?, hnext .greaterEqual rfl]⟩
  | plus | minus | star | slash | equalEqual | bangEqual | lessEqual | greaterEqual | leftParen | rightParen
  | leftBrace | rightBrace | comma | dot | semicolon => exact ⟨_, _, rfl, rfl⟩
  | _ => exact absurd (by decide) hr

end Cursor

namespace Lexeme

variable {kind : TokenKind} {c : Char} {cs behind : List Char}

/-- Whether a word is reserved or not, it is a lexeme. -/
theorem word (hc : startsWord c = true) (hcs : ∀ d ∈ cs, continuesWord d = true) :
    Lexeme (Cursor.wordKind (String.ofList (c :: cs))) (c :: cs) := by
  unfold Cursor.wordKind
  cases hword : Reserved.ofWord? (String.ofList (c :: cs)) with
  | some r =>
      have htext := congrArg String.toList (Reserved.text_of_ofWord? hword)
      rw [String.toList_ofList] at htext
      rw [← htext]
      exact .reserved r
  | none =>
      refine .identifier c cs hc hcs fun r hr htext => ?_
      have hnone := List.find?_eq_none.mp hword r hr
      rw [← htext, String.ofList_toList] at hnone
      simp at hnone

/-- The four ways in which a lexeme can begin. -/
theorem head (h : Lexeme kind (c :: cs)) :
    (∃ next r, symbol? c next = some r) ∨ c = '"' ∨ c.isDigit = true ∨ startsWord c = true := by
  generalize hlexeme : c :: cs = lexeme at h
  cases h with
  | reserved r =>
      by_cases hr : r ∈ Reserved.keywords
      · obtain ⟨d, ds, htext, hd, -⟩ := Cursor.text_keyword hr
        rw [htext] at hlexeme
        cases hlexeme
        exact .inr (.inr (.inr hd))
      · obtain ⟨d, ds, htext, hsymbol⟩ := Cursor.symbol?_of_longest hr [] fun r' hr' => by
          simpa using hr'.length_le
        rw [htext] at hlexeme
        cases hlexeme
        exact .inl ⟨_, r, hsymbol⟩
  | string content hcontent =>
      cases hlexeme
      exact .inr (.inl rfl)
  | number whole fraction hsome hwhole hfraction =>
      obtain ⟨d, ds, rfl⟩ := List.exists_cons_of_ne_nil hsome
      cases hlexeme
      exact .inr (.inr (.inl (hwhole _ (by simp))))
  | identifier d ds hd hds hword =>
      cases hlexeme
      exact .inr (.inr (.inr hd))

/-- The longest lexeme does not go on in what follows it. -/
theorem Longest.not_extends {lexeme : List Char} {kind' : TokenKind} (h : Longest kind lexeme behind) (more : List Char)
    (hlexeme : Lexeme kind' (lexeme ++ more)) (hmore : more ≠ []) (hbehind : more <+: behind) : False := by
  have hle := h.longest _ _ hlexeme ((List.prefix_append_right_inj lexeme).mpr hbehind)
  have hpos := List.length_pos_iff.mpr hmore
  rw [List.length_append] at hle
  omega

theorem ne_nil {lexeme : List Char} (h : Lexeme kind lexeme) : lexeme ≠ [] := by
  cases h with
  | reserved r => exact r.text_ne_nil
  | string content hcontent => simp
  | number whole fraction hsome hwhole hfraction => simp [Number.spelling, hsome]
  | identifier c cs hc hcs hword => simp

theorem isEof {lexeme : List Char} (h : Lexeme kind lexeme) : kind.isEof = false := by
  cases h <;> rfl

/-- Of the lexemes that begin at a place one is the longest. -/
theorem exists_longest {lexeme rest : List Char} (h : Lexeme kind lexeme) (hrest : lexeme <+: rest) :
    ∃ kind' lexeme' behind, rest = lexeme' ++ behind ∧ Longest kind' lexeme' behind := by
  classical
  let P : Nat → Prop := fun n => ∃ kind, Lexeme kind (rest.take n)
  have htake : ∀ {kind cs}, Lexeme kind cs → cs <+: rest → P cs.length := fun h hcs =>
    ⟨_, by rwa [← List.prefix_iff_eq_take.mp hcs]⟩
  obtain ⟨kind', hkind'⟩ : P (Nat.findGreatest P rest.length) :=
    Nat.findGreatest_spec hrest.length_le (htake h hrest)
  refine ⟨kind', _, rest.drop (Nat.findGreatest P rest.length), (List.take_append_drop _ _).symm, hkind', ?_⟩
  intro kind'' longer hlonger hcs
  rw [List.take_append_drop] at hcs
  rw [List.length_take, Nat.min_eq_left (Nat.findGreatest_le _)]
  exact Nat.le_findGreatest hcs.length_le (htake hlonger hcs)

end Lexeme

/-! ## Reading the longest lexeme -/

namespace Cursor

theorem takeWhile_append (p : Place) (behind : List Char) {test : Char → Bool} {taken : List Char}
    (htaken : ∀ c ∈ taken, test c = true) (hbehind : ∀ c ∈ behind.head?, test c = false) :
    takeWhile { place := p, rest := taken ++ behind } test = (taken, { place := p.after taken, rest := behind }) := by
  have hstop : behind.takeWhile test = [] ∧ behind.dropWhile test = behind := by
    cases behind with
    | nil => exact ⟨rfl, rfl⟩
    | cons c cs => simp [hbehind c rfl]
  unfold takeWhile
  rw [List.span_eq_takeWhile_dropWhile, List.takeWhile_append_of_pos htaken, List.dropWhile_append_of_pos htaken,
    hstop.1, hstop.2, List.append_nil]

theorem advance_cons (p : Place) (c : Char) (cs : List Char) :
    advance { place := p, rest := c :: cs } 1 = { place := p.next c, rest := cs } := rfl

variable {p : Place} {behind : List Char}

/-- The digits of a number, where no further one follows. -/
theorem digits_append {whole fraction : List Char} (hwhole : ∀ c ∈ whole, c.isDigit = true)
    (hfraction : ∀ c ∈ fraction, c.isDigit = true) (hdigit : ∀ c ∈ behind.head?, c.isDigit = false)
    (hpoint : fraction = [] → ∀ c cs, behind = '.' :: c :: cs → c.isDigit = false) :
    digits { place := p, rest := Number.spelling whole fraction ++ behind } =
      (whole, fraction, { place := p.after (Number.spelling whole fraction), rest := behind }) := by
  cases fraction with
  | nil =>
      have hinteger : Number.spelling whole [] = whole := List.append_nil _
      unfold digits
      rw [hinteger, takeWhile_append p behind hwhole hdigit]
      dsimp only
      split
      · rename_i c cs
        rw [hpoint rfl c cs rfl]
        rfl
      · rfl
  | cons d ds =>
      have hfound := takeWhile_append ((p.after whole).next '.') behind hfraction hdigit
      unfold digits
      rw [Number.spelling, if_neg (List.cons_ne_nil d ds), List.append_assoc, takeWhile_append _ _ hwhole (by simp)]
      change (if d.isDigit = true then _ else _) = _
      rw [if_pos (hfraction d (by simp)), List.cons_append, advance_cons, hfound, Place.after_append]
      rfl

theorem lexeme_symbol {r : Reserved} {c : Char} {cs : List Char} (htext : r.text.toList = c :: cs)
    (hsymbol : symbol? c (cs ++ behind).head? = some r) :
    Cursor.lexeme { place := p, rest := r.text.toList ++ behind } =
      .ok { kind := .reserved r, span := p.spanTo (p.after r.text.toList) }
        { place := p.after r.text.toList, rest := behind } := by
  have hadvance := advance_append p r.text.toList behind
  rw [String.length_toList] at hadvance
  unfold Cursor.lexeme
  rw [htext] at hadvance ⊢
  dsimp only [List.cons_append] at hadvance ⊢
  rw [hsymbol]
  dsimp only
  rw [hadvance]

theorem lexeme_string {content : List Char} (hcontent : '"' ∉ content) :
    Cursor.lexeme { place := p, rest := '"' :: (content ++ ['"']) ++ behind } =
      .ok { kind := .string (String.ofList content), span := p.spanTo (p.after ('"' :: (content ++ ['"']))) }
        { place := p.after ('"' :: (content ++ ['"'])), rest := behind } := by
  have htaken : ∀ c ∈ content, (c != '"') = true := fun c hc => by
    simpa using fun h : c = '"' => hcontent (h ▸ hc)
  have hfound := takeWhile_append (p.next '"') ('"' :: behind) htaken (by simp)
  unfold Cursor.lexeme
  rw [List.cons_append, List.append_assoc, Place.after_cons, Place.after_append]
  dsimp only
  rw [advance_cons, List.singleton_append, hfound]
  rfl

theorem lexeme_number {whole fraction : List Char} (hsome : whole ≠ []) (hwhole : ∀ c ∈ whole, c.isDigit = true)
    (hdigits : digits { place := p, rest := Number.spelling whole fraction ++ behind } =
      (whole, fraction, { place := p.after (Number.spelling whole fraction), rest := behind })) :
    Cursor.lexeme { place := p, rest := Number.spelling whole fraction ++ behind } =
      .ok { kind := .number (Number.read whole fraction), span := p.spanTo (p.after (Number.spelling whole fraction)) }
        { place := p.after (Number.spelling whole fraction), rest := behind } := by
  obtain ⟨c, cs, rfl⟩ := List.exists_cons_of_ne_nil hsome
  have hc : c.isDigit = true := hwhole c (by simp)
  obtain ⟨ds, hds⟩ : ∃ ds, Number.spelling (c :: cs) fraction ++ behind = c :: ds := ⟨_, rfl⟩
  rw [hds] at hdigits ⊢
  unfold Cursor.lexeme
  dsimp only
  rw [symbol?_of_isDigit hc, if_neg (ne_quote_of_isDigit hc), if_pos hc, hdigits]

theorem lexeme_word {c : Char} {cs : List Char} (hc : startsWord c = true) (hcs : ∀ d ∈ cs, continuesWord d = true)
    (hbehind : ∀ d ∈ behind.head?, continuesWord d = false) :
    Cursor.lexeme { place := p, rest := c :: cs ++ behind } =
      .ok { kind := wordKind (String.ofList (c :: cs)), span := p.spanTo (p.after (c :: cs)) }
        { place := p.after (c :: cs), rest := behind } := by
  have htaken : ∀ d ∈ c :: cs, continuesWord d = true := by
    simpa using ⟨continuesWord_of_startsWord hc, hcs⟩
  have hfound := takeWhile_append p behind htaken hbehind
  have hdigit : ¬c.isDigit = true := fun h => by
    rw [startsWord_of_isDigit h] at hc
    cases hc
  unfold Cursor.lexeme
  dsimp only [List.cons_append] at hfound ⊢
  rw [symbol?_of_startsWord hc, if_neg (ne_quote_of_startsWord hc), if_neg hdigit, if_pos hc, hfound]

theorem ofWord?_text : ∀ r ∈ Reserved.keywords, Reserved.ofWord? r.text = some r := by
  decide

/-- Behind a word that is the longest lexeme stands nothing that a word goes on with. -/
theorem continuesWord_of_longest {kind : TokenKind} {c : Char} {cs : List Char}
    (h : Lexeme.Longest kind (c :: cs) behind) (hc : startsWord c = true) (hcs : ∀ d ∈ cs, continuesWord d = true) :
    ∀ d ∈ behind.head?, continuesWord d = false := by
  intro d hd
  by_contra hword
  rw [Bool.not_eq_false] at hword
  obtain ⟨ds, rfl⟩ := List.head?_eq_some_iff.mp hd
  refine h.not_extends [d] (Lexeme.word hc fun e he => ?_) (by simp) (by simp)
  obtain he | he := List.mem_append.mp he
  · exact hcs e he
  · rw [List.mem_singleton.mp he]
    exact hword

/-- Behind a number that is the longest lexeme stands no digit. -/
theorem isDigit_of_longest {kind : TokenKind} {whole fraction : List Char}
    (h : Lexeme.Longest kind (Number.spelling whole fraction) behind) (hsome : whole ≠ [])
    (hwhole : ∀ c ∈ whole, c.isDigit = true) (hfraction : ∀ c ∈ fraction, c.isDigit = true) :
    ∀ d ∈ behind.head?, d.isDigit = false := by
  intro d hd
  by_contra hdigit
  rw [Bool.not_eq_false] at hdigit
  obtain ⟨ds, rfl⟩ := List.head?_eq_some_iff.mp hd
  have hsnoc : ∀ cs : List Char, (∀ c ∈ cs, c.isDigit = true) → ∀ c ∈ cs ++ [d], c.isDigit = true := by
    intro cs hcs c hc
    obtain hc | hc := List.mem_append.mp hc
    · exact hcs c hc
    · rw [List.mem_singleton.mp hc]
      exact hdigit
  by_cases hnone : fraction = []
  · have hlonger := Lexeme.number (whole ++ [d]) [] (by simp) (hsnoc whole hwhole) (by simp)
    have hmore : Number.spelling (whole ++ [d]) [] = Number.spelling whole fraction ++ [d] := by
      simp [Number.spelling, hnone]
    rw [hmore] at hlonger
    exact h.not_extends [d] hlonger (by simp) (by simp)
  · have hlonger := Lexeme.number whole (fraction ++ [d]) hsome hwhole (hsnoc fraction hfraction)
    have hmore : Number.spelling whole (fraction ++ [d]) = Number.spelling whole fraction ++ [d] := by
      simp [Number.spelling, hnone]
    rw [hmore] at hlonger
    exact h.not_extends [d] hlonger (by simp) (by simp)

/-- Behind a whole number that is the longest lexeme stands no point with a digit behind it. -/
theorem point_of_longest {kind : TokenKind} {whole : List Char}
    (h : Lexeme.Longest kind (Number.spelling whole []) behind) (hsome : whole ≠ [])
    (hwhole : ∀ c ∈ whole, c.isDigit = true) : ∀ d ds, behind = '.' :: d :: ds → d.isDigit = false := by
  rintro d ds rfl
  by_contra hdigit
  rw [Bool.not_eq_false] at hdigit
  have hlonger := Lexeme.number whole [d] hsome hwhole (by simpa using hdigit)
  have hmore : Number.spelling whole [d] = Number.spelling whole [] ++ ['.', d] := by simp [Number.spelling]
  rw [hmore] at hlonger
  exact h.not_extends ['.', d] hlonger (by simp) (by simp)

/-- **The longest lexeme is the one that is read.** -/
theorem lexeme_of_longest {kind : TokenKind} {lexeme : List Char} (h : Lexeme.Longest kind lexeme behind) (p : Place) :
    Cursor.lexeme { place := p, rest := lexeme ++ behind } =
      .ok { kind, span := p.spanTo (p.after lexeme) } { place := p.after lexeme, rest := behind } := by
  cases h.isLexeme with
  | reserved r =>
      by_cases hr : r ∈ Reserved.keywords
      · obtain ⟨c, cs, htext, hc, hcs⟩ := text_keyword hr
        have hkind : wordKind (String.ofList (c :: cs)) = .reserved r := by
          rw [← htext, String.ofList_toList, wordKind, ofWord?_text r hr]
        rw [htext] at h ⊢
        rw [← hkind]
        exact lexeme_word hc hcs (continuesWord_of_longest h hc hcs)
      · obtain ⟨c, cs, htext, hsymbol⟩ := symbol?_of_longest hr behind fun r' hr' => h.longest _ _ (.reserved r') hr'
        exact lexeme_symbol htext hsymbol
  | string content hcontent => exact lexeme_string hcontent
  | number whole fraction hsome hwhole hfraction =>
      have hdigit := isDigit_of_longest h hsome hwhole hfraction
      have hpoint : fraction = [] → ∀ d ds, behind = '.' :: d :: ds → d.isDigit = false := by
        rintro rfl
        exact point_of_longest h hsome hwhole
      exact lexeme_number hsome hwhole (digits_append hwhole hfraction hdigit hpoint)
  | identifier c cs hc hcs hword =>
      have hkind : wordKind (String.ofList (c :: cs)) = .identifier (String.ofList (c :: cs)) := by
        have hnone : Reserved.ofWord? (String.ofList (c :: cs)) = none := by
          refine List.find?_eq_none.mpr fun r hr htext => hword r hr ?_
          rw [beq_iff_eq.mp htext, String.toList_ofList]
        rw [wordKind, hnone]
      rw [← hkind]
      exact lexeme_word hc hcs (continuesWord_of_longest h hc hcs)

end Cursor

/-! ## Where there is no lexeme -/

namespace Cursor

variable {behind : List Char}

theorem lexeme_unterminated {content : List Char} (hcontent : '"' ∉ content) (p : Place) :
    Cursor.lexeme { place := p, rest := '"' :: content } =
      .error (.unterminatedString (p.spanTo (p.after ('"' :: content))))
        { place := p.after ('"' :: content), rest := [] } := by
  have htaken : ∀ c ∈ content, (c != '"') = true := fun c hc => by
    simpa using fun h : c = '"' => hcontent (h ▸ hc)
  have hfound := takeWhile_append (p.next '"') [] htaken (by simp)
  rw [List.append_nil] at hfound
  unfold Cursor.lexeme
  dsimp only
  rw [advance_cons, hfound]
  rfl

theorem lexeme_unexpected {c : Char} (hc : ∀ kind cs, ¬Lexeme kind (c :: cs)) (p : Place) :
    Cursor.lexeme { place := p, rest := c :: behind } =
      .error (.unexpectedChar c (p.spanTo (p.after [c]))) { place := p.after [c], rest := behind } := by
  have hsymbol : symbol? c behind.head? = none := by
    cases hr : symbol? c behind.head? with
    | none => rfl
    | some r =>
        have hlexeme := Lexeme.reserved r
        obtain ⟨-, htext | ⟨-, htext⟩⟩ := symbol?_eq_some hr <;> rw [htext] at hlexeme
        · exact absurd hlexeme (hc _ _)
        · exact absurd hlexeme (hc _ _)
  have hquote : c ≠ '"' := by
    rintro rfl
    exact hc _ _ (.string [] (by simp))
  have hdigit : ¬c.isDigit = true := fun h => hc _ _ (.number [c] [] (by simp) (by simpa using h) (by simp))
  have hword : ¬startsWord c = true := fun h => hc _ [] (.word h (by simp))
  unfold Cursor.lexeme
  dsimp only
  rw [hsymbol, if_neg hquote, if_neg hdigit, if_neg hword, advance_cons]
  rfl

/-- At any place a lexeme begins, or the text ends, or there is no lexeme. -/
theorem lexeme_cases (rest : List Char) :
    rest = [] ∨ (∃ kind lexeme behind, rest = lexeme ++ behind ∧ Lexeme.Longest kind lexeme behind) ∨
      (∃ content, rest = '"' :: content ∧ '"' ∉ content) ∨
      ∃ c behind, rest = c :: behind ∧ ∀ kind cs, ¬Lexeme kind (c :: cs) := by
  obtain ⟨item, lexeme, behind, rfl, -, hreads⟩ := lexeme_found {} rest
  have hlongest : ∀ {kind}, Lexeme kind lexeme → ∃ kind lexeme' behind', lexeme ++ behind = lexeme' ++ behind' ∧
      Lexeme.Longest kind lexeme' behind' := fun h => h.exists_longest (List.prefix_append _ _)
  cases hreads with
  | eof hend => exact .inl hend
  | symbol r hr => exact .inr (.inl (hlongest (.reserved r)))
  | string content hcontent => exact .inr (.inl (hlongest (.string content hcontent)))
  | number whole fraction hsome hwhole hfraction =>
      exact .inr (.inl (hlongest (.number whole fraction hsome hwhole hfraction)))
  | word c cs hc hcs => exact .inr (.inl (hlongest (.word hc hcs)))
  | unexpectedChar c hsymbol hquote hdigit hword =>
      refine .inr (.inr (.inr ⟨c, behind, rfl, fun kind cs h => ?_⟩))
      rcases h.head with ⟨next, r, hr⟩ | hc | hc | hc
      · rw [hsymbol] at hr
        cases hr
      · exact hquote hc
      · rw [hdigit] at hc
        cases hc
      · rw [hword] at hc
        cases hc
  | unterminatedString content hcontent hend =>
      subst hend
      exact .inr (.inr (.inl ⟨content, List.append_nil _, hcontent⟩))

/-! ## Gaps -/

/-- The text of a comment is skipped up to its end. -/
theorem skipFrom_comment {text cs : List Char} (htext : '\n' ∉ text) (hend : ∀ c ∈ cs.head?, c = '\n') (p : Place) :
    skipFrom true p (text ++ cs) = skipFrom false (p.after text) cs := by
  induction text generalizing p with
  | nil =>
      cases cs with
      | nil => rfl
      | cons c cs =>
          obtain rfl := hend c rfl
          rfl
  | cons c text ih =>
      have hc : (c != '\n') = true := by
        simpa using fun h : c = '\n' => htext (h ▸ List.mem_cons_self)
      rw [List.cons_append, skipFrom, if_pos rfl, hc, ih fun h => htext (List.mem_cons_of_mem _ h)]
      rfl

/-- A gap is skipped up to its end. -/
theorem skip_gap {gap : List Char} (h : Gap behind gap) (hended : Gap.Ended behind) (p : Place) :
    skip { place := p, rest := gap ++ behind } = { place := p.after gap, rest := behind } := by
  unfold skip
  dsimp only
  induction h generalizing p with
  | nil =>
      cases behind with
      | nil => rfl
      | cons c cs =>
          have hslash : ¬(c = '/' && cs.head? == some '/') = true := by
            intro h
            simp only [Bool.and_eq_true, decide_eq_true_eq, beq_iff_eq] at h
            obtain ⟨rfl, hhead⟩ := h
            obtain ⟨ds, rfl⟩ := List.head?_eq_some_iff.mp hhead
            exact hended.comment ⟨ds, rfl⟩
          rw [List.nil_append, skipFrom, if_neg (by simp), if_neg (by simp [hended.separator c rfl]), if_neg hslash]
          rfl
  | separator hc h ih =>
      rw [List.cons_append, skipFrom, if_neg (by simp), if_pos hc, ih]
      rfl
  | comment htext hend h ih =>
      have hskip := skipFrom_comment htext hend ((p.next '/').next '/')
      rw [ih] at hskip
      rw [List.cons_append, List.cons_append, List.append_assoc, Place.after_cons, Place.after_cons, Place.after_append]
      exact hskip

theorem token_gap {gap : List Char} (h : Gap behind gap) (hended : Gap.Ended behind) (p : Place) :
    token { place := p, rest := gap ++ behind } = Cursor.lexeme { place := p.after gap, rest := behind } := by
  unfold token
  rw [skip_gap h hended]

end Cursor

/-! ## Scanning -/

/-- Tokens are taken one after the other: a gap is skipped, and of the lexemes that begin behind it the longest is
taken. -/
inductive Consumes : Place → List Char → List Token → Place → List Char → Prop where
  | nil (p : Place) (rest : List Char) : Consumes p rest [] p rest
  | cons {p p' : Place} {gap lexeme behind rest : List Char} {kind : TokenKind} {ts : List Token}
      (hgap : Gap (lexeme ++ behind) gap) (hended : Gap.Ended (lexeme ++ behind))
      (hlexeme : Lexeme.Longest kind lexeme behind) (h : Consumes (p.after (gap ++ lexeme)) behind ts p' rest) :
      Consumes p (gap ++ lexeme ++ behind)
        ({ kind, span := (p.after gap).spanTo (p.after (gap ++ lexeme)) } :: ts) p' rest

/-- Behind a gap the text ends, or there is no lexeme: a string is not closed, or nothing begins with a character. -/
inductive Concludes (p : Place) : List Char → Except LexicalError Token → Prop where
  | eof {gap : List Char} (hgap : Gap [] gap) :
      Concludes p gap (.ok { kind := .eof, span := (p.after gap).spanTo (p.after gap) })
  | unterminatedString {gap content : List Char} (hgap : Gap ('"' :: content) gap) (hcontent : '"' ∉ content) :
      Concludes p (gap ++ '"' :: content)
        (.error (.unterminatedString ((p.after gap).spanTo (p.after (gap ++ '"' :: content)))))
  | unexpectedChar {gap behind : List Char} {c : Char} (hgap : Gap (c :: behind) gap) (hended : Gap.Ended (c :: behind))
      (hc : ∀ kind cs, ¬Lexeme kind (c :: cs)) :
      Concludes p (gap ++ c :: behind) (.error (.unexpectedChar c ((p.after gap).spanTo (p.after (gap ++ [c])))))

variable {p p' : Place} {rest rest' : List Char} {ts : List Token} {last : Except LexicalError Token}

theorem ended_nil : Gap.Ended [] :=
  ⟨by simp, by simp⟩

theorem ended_quote (content : List Char) : Gap.Ended ('"' :: content) :=
  ⟨by simp [Cursor.isSeparator], by simp⟩

theorem Concludes.scanFrom (h : Concludes p rest last) (n : Nat) (read : Array Token) :
    scanFrom (n + 1) read { place := p, rest } = last.map read.push := by
  unfold Lox.scanFrom
  cases h with
  | eof hgap =>
      have htoken := Cursor.token_gap hgap ended_nil p
      rw [List.append_nil] at htoken
      rw [htoken]
      rfl
  | unterminatedString hgap hcontent =>
      rw [Cursor.token_gap hgap (ended_quote _), Cursor.lexeme_unterminated hcontent, Place.after_append]
      rfl
  | unexpectedChar hgap hended hc =>
      rw [Cursor.token_gap hgap hended, Cursor.lexeme_unexpected hc, Place.after_append]
      rfl

theorem Consumes.scanFrom (h : Consumes p rest ts p' rest') (hlast : Concludes p' rest' last) {n : Nat}
    (hn : rest.length < n) (read : Array Token) :
    scanFrom n read { place := p, rest } = last.map fun t => read ++ (ts ++ [t]).toArray := by
  induction h generalizing n read with
  | nil p rest =>
      obtain ⟨n, rfl⟩ := Nat.exists_eq_add_of_lt hn
      rw [hlast.scanFrom]
      cases last with
      | ok t => simp [Except.map]
      | error e => rfl
  | @cons p p' gap lexeme behind rest kind ts hgap hended hlexeme h ih =>
      have hpos := List.length_pos_iff.mpr hlexeme.isLexeme.ne_nil
      simp only [List.length_append] at hn
      obtain ⟨n, rfl⟩ := Nat.exists_eq_add_of_lt hn
      have htoken := Cursor.token_gap hgap hended p
      rw [Cursor.lexeme_of_longest hlexeme, ← Place.after_append] at htoken
      unfold Lox.scanFrom
      rw [List.append_assoc, htoken]
      dsimp only
      rw [if_neg (by simp [hlexeme.isLexeme.isEof]), ih hlast (by omega)]
      cases last with
      | ok t => simp [Except.map]
      | error e => rfl

theorem Consumes.scan_eq {source : String} (h : Consumes {} source.toList ts p rest) (hlast : Concludes p rest last) :
    scan source = last.map fun t => ts ++ [t] := by
  unfold scan Cursor.ofText
  dsimp only
  rw [h.scanFrom hlast (Nat.lt_succ_self _)]
  cases last with
  | ok t => simp [Except.map]
  | error e => rfl

/-- Every text is taken to its end, or to where it stops. -/
theorem exists_consumes (p : Place) (rest : List Char) :
    ∃ ts p' rest' last, Consumes p rest ts p' rest' ∧ Concludes p' rest' last := by
  induction hn : rest.length using Nat.strongRecOn generalizing p rest with
  | ind n ih =>
      obtain ⟨gap, behind, rfl, -, hgap, hended⟩ := Cursor.skip_found { place := p, rest }
      rcases Cursor.lexeme_cases behind with rfl | ⟨kind, lexeme, behind, rfl, hlexeme⟩ | ⟨content, rfl, hcontent⟩ |
        ⟨c, behind, rfl, hc⟩
      · rw [List.append_nil]
        exact ⟨[], p, gap, _, .nil _ _, .eof hgap⟩
      · have hpos := List.length_pos_iff.mpr hlexeme.isLexeme.ne_nil
        simp only [List.length_append] at hn
        obtain ⟨ts, p', rest', last, hconsumes, hconcludes⟩ :=
          ih behind.length (by omega) (p.after (gap ++ lexeme)) behind rfl
        rw [← List.append_assoc]
        exact ⟨_, p', rest', last, .cons hgap hended hlexeme hconsumes, hconcludes⟩
      · exact ⟨[], p, _, _, .nil _ _, .unterminatedString hgap hcontent⟩
      · exact ⟨[], p, _, _, .nil _ _, .unexpectedChar hgap hended hc⟩

/-- **Scanning is the longest match.** Scanning gives the tokens that are taken from the text and its end, or the error
where no more can be taken. This is the first string that is not closed or the first character that begins no lexeme;
digits always spell a number. -/
theorem scan_longestMatch (source : String) :
    (∀ tokens, scan source = .ok tokens ↔ ∃ ts p rest eof,
      Consumes {} source.toList ts p rest ∧ Concludes p rest (.ok eof) ∧ tokens = ts ++ [eof]) ∧
    (∀ e, scan source = .error e ↔ ∃ ts p rest, Consumes {} source.toList ts p rest ∧ Concludes p rest (.error e)) ∧
    ∀ digits span, scan source ≠ .error (.invalidNumber digits span) := by
  obtain ⟨ts, p, rest, last, hconsumes, hconcludes⟩ := exists_consumes {} source.toList
  have heq := hconsumes.scan_eq hconcludes
  refine ⟨fun tokens => ⟨fun h => ?_, ?_⟩, fun e => ⟨fun h => ?_, ?_⟩, fun digits span h => ?_⟩
  · rw [h] at heq
    cases last with
    | ok eof => exact ⟨ts, p, rest, eof, hconsumes, hconcludes, Except.ok.inj heq⟩
    | error e => cases heq
  · rintro ⟨ts, p, rest, eof, hconsumes, hconcludes, rfl⟩
    exact hconsumes.scan_eq hconcludes
  · rw [h] at heq
    cases last with
    | ok eof => cases heq
    | error e' =>
        cases heq
        exact ⟨ts, p, rest, hconsumes, hconcludes⟩
  · rintro ⟨ts, p, rest, hconsumes, hconcludes⟩
    exact hconsumes.scan_eq hconcludes
  · rw [h] at heq
    cases hconcludes <;> cases heq

end Lox
