import Lox.Proofs.ShortestDigits

/-!
# The texts of different numbers

Every number is written differently from all others, the two zeros and the two infinities included.

* `Number.magnitude_injective` : the text of a number without its sign;
* `Number.text_injective` : the text of a number.
-/

namespace Lox

namespace Number

/-! ## Digits -/

/-- Digits before and after a decimal point are found again. -/
theorem spelling_inj {whole fraction whole' fraction' : List Char} (hwhole : ∀ c ∈ whole, c.isDigit = true)
    (hwhole' : ∀ c ∈ whole', c.isDigit = true) (h : spelling whole fraction = spelling whole' fraction') :
    whole = whole' ∧ fraction = fraction' := by
  have htake {w f : List Char} (hw : ∀ c ∈ w, c.isDigit = true) : (spelling w f).takeWhile Char.isDigit = w := by
    rw [spelling, List.takeWhile_append_of_pos hw]
    split_ifs
    · simp
    · simp
  have hdrop {w f : List Char} (hw : ∀ c ∈ w, c.isDigit = true) : ((spelling w f).dropWhile Char.isDigit).tail = f := by
    rw [spelling, List.dropWhile_append_of_pos hw]
    split_ifs with hf
    · simp [hf]
    · simp
  constructor
  · rw [← htake hwhole, h, htake hwhole']
  · rw [← hdrop (f := fraction) hwhole, h, hdrop hwhole']

theorem mem_spelling {whole fraction : List Char} {c : Char} (h : c ∈ spelling whole fraction) :
    c ∈ whole ∨ c = '.' ∨ c ∈ fraction := by
  rw [spelling, List.mem_append] at h
  refine h.imp_right fun h => ?_
  split_ifs at h
  · exact absurd h List.not_mem_nil
  · exact List.mem_cons.mp h

variable {e f e' f' : Nat}

/-- The number without a sign that has these exponent bits and fraction bits. -/
def unsigned (e f : Nat) : Double :=
  ⟨.ofNat (e * 2 ^ 52 + f)⟩

theorem toNat_bits_unsigned (he : e < 2 ^ 11) (hf : f < 2 ^ 52) : (unsigned e f).bits.toNat = e * 2 ^ 52 + f :=
  UInt64.toNat_ofNat_of_lt' (by change _ < 2 ^ 64; omega)

theorem exponentBits_unsigned (he : e < 2 ^ 11) (hf : f < 2 ^ 52) : (unsigned e f).exponentBits = e := by
  rw [Double.exponentBits, toNat_bits_unsigned he hf]
  omega

theorem fractionBits_unsigned (he : e < 2 ^ 11) (hf : f < 2 ^ 52) : (unsigned e f).fractionBits = f := by
  rw [Double.fractionBits, toNat_bits_unsigned he hf]
  omega

theorem unsigned_plain (he : e < 2047) (hf : f < 2 ^ 52) : Plain (unsigned e f) where
  finite := by rwa [exponentBits_unsigned (he.trans (by decide)) hf]
  unsigned := by
    rw [UInt64.lt_iff_toNat_lt, toNat_bits_unsigned (he.trans (by decide)) hf]
    change _ < 2 ^ 63
    omega

/-- The text of a finite number without its sign is a row of digits that is read as the number. -/
theorem magnitude_spelled (he : e < 2047) (hf : f < 2 ^ 52) :
    ∃ whole fraction, (magnitude e f).toList = spelling whole fraction ∧ whole ≠ [] ∧
      (∀ c ∈ whole, c.isDigit = true) ∧ (∀ c ∈ fraction, c.isDigit = true) ∧ read whole fraction = unsigned e f := by
  have htext := (unsigned_plain he hf).text_eq_magnitude
  rw [exponentBits_unsigned (he.trans (by decide)) hf, fractionBits_unsigned (he.trans (by decide)) hf] at htext
  rw [← htext]
  exact (unsigned_plain he hf).text_spelled

structure Meant (e f : Nat) : Prop where
  exponent_lt : e < 2 ^ 11
  fraction_lt : f < 2 ^ 52
  infinity : e = 2047 → f = 0

/-- A text without a sign is that of infinity, or digits. -/
theorem magnitude_cases (h : Meant e f) :
    (e = 2047 ∧ f = 0 ∧ (magnitude e f).toList = ['i', 'n', 'f']) ∨
      e < 2047 ∧ ∃ c whole fraction, (magnitude e f).toList = spelling (c :: whole) fraction ∧
        (∀ d ∈ c :: whole, d.isDigit = true) ∧ (∀ d ∈ fraction, d.isDigit = true) ∧
        read (c :: whole) fraction = unsigned e f := by
  by_cases hinf : e = 2047
  · exact .inl ⟨hinf, h.infinity hinf, by rw [magnitude, if_pos hinf]; rfl⟩
  · have he : e < 2047 := by
      have := h.exponent_lt
      omega
    obtain ⟨whole, fraction, htext, hne, hwhole, hfraction, hread⟩ := magnitude_spelled he h.fraction_lt
    obtain ⟨c, cs, rfl⟩ := List.exists_cons_of_ne_nil hne
    exact .inr ⟨he, c, cs, fraction, htext, hwhole, hfraction, hread⟩

/-- A text without a sign does not begin with one. -/
theorem magnitude_head_ne (h : Meant e f) {cs : List Char} : (magnitude e f).toList ≠ '-' :: cs := by
  intro hcs
  rcases magnitude_cases h with ⟨-, -, htext⟩ | ⟨-, c, whole, fraction, htext, hwhole, -, -⟩
  · rw [htext] at hcs
    exact absurd (List.cons.inj hcs).1 (by decide)
  · rw [htext] at hcs
    obtain ⟨rfl, -⟩ := List.cons.inj hcs
    exact absurd (hwhole '-' List.mem_cons_self) (by decide)

/-- Different numbers without a sign have different texts. -/
theorem magnitude_injective (h : Meant e f) (h' : Meant e' f') (htext : magnitude e f = magnitude e' f') :
    e = e' ∧ f = f' := by
  have hletter {c : Char} {whole fraction : List Char} (hwhole : ∀ d ∈ c :: whole, d.isDigit = true) :
      ['i', 'n', 'f'] ≠ spelling (c :: whole) fraction := by
    intro heq
    obtain ⟨rfl, -⟩ := List.cons.inj heq
    exact absurd (hwhole 'i' List.mem_cons_self) (by decide)
  rcases magnitude_cases h with ⟨he, hf, hinf⟩ | ⟨he, c, whole, fraction, hspelling, hwhole, -, hread⟩ <;>
    rcases magnitude_cases h' with ⟨he', hf', hinf'⟩ | ⟨he', c', whole', fraction', hspelling', hwhole', -, hread'⟩
  · exact ⟨he.trans he'.symm, hf.trans hf'.symm⟩
  · rw [← htext, hinf] at hspelling'
    exact absurd hspelling' (hletter hwhole')
  · rw [htext, hinf'] at hspelling
    exact absurd hspelling (hletter hwhole)
  · rw [htext, hspelling'] at hspelling
    obtain ⟨hdigits, rfl⟩ := spelling_inj hwhole' hwhole hspelling
    rw [← hdigits] at hread
    have hsame := hread.symm.trans hread'
    constructor
    · rw [← exponentBits_unsigned h.exponent_lt h.fraction_lt, hsame,
        exponentBits_unsigned h'.exponent_lt h'.fraction_lt]
    · rw [← fractionBits_unsigned h.exponent_lt h.fraction_lt, hsame,
        fractionBits_unsigned h'.exponent_lt h'.fraction_lt]

/-! ## Signs -/

variable {x y : Double}

theorem meant_of_not_nan (h : x.isNaN = false) : Meant x.exponentBits x.fractionBits where
  exponent_lt := Nat.mod_lt _ (by decide)
  fraction_lt := Nat.mod_lt _ (by decide)
  infinity := Double.isNaN_eq_false.mp h

/-- The text of a number is a sign, if it has one, and a text without a sign. -/
theorem text_eq_sign (h : x.isNaN = false) :
    (text x).toList = (if 2 ^ 63 ≤ x.bits.toNat then ['-'] else []) ++
      (magnitude x.exponentBits x.fractionBits).toList := by
  unfold text
  rw [Double.fields_eq, h]
  dsimp only
  rw [if_neg (by decide)]
  by_cases hsign : 2 ^ 63 ≤ x.bits.toNat
  · rw [if_pos (decide_eq_true hsign), if_pos hsign, String.toList_append]
    rfl
  · rw [if_neg (by simpa using hsign), if_neg hsign, List.nil_append]

/-- **Different numbers have different texts.** -/
theorem text_injective (hx : x.isNaN = false) (hy : y.isNaN = false) (h : text x = text y) : x = y := by
  have htext := congrArg String.toList h
  rw [text_eq_sign hx, text_eq_sign hy] at htext
  have hparts : (2 ^ 63 ≤ x.bits.toNat ↔ 2 ^ 63 ≤ y.bits.toNat) ∧
      (magnitude x.exponentBits x.fractionBits).toList = (magnitude y.exponentBits y.fractionBits).toList := by
    split_ifs at htext with hs hs' hs'
    · exact ⟨iff_of_true hs hs', (List.cons.inj htext).2⟩
    · exact absurd htext.symm (magnitude_head_ne (meant_of_not_nan hy))
    · exact absurd htext (magnitude_head_ne (meant_of_not_nan hx))
    · exact ⟨iff_of_false hs hs', htext⟩
  obtain ⟨hexponent, hfraction⟩ :=
    magnitude_injective (meant_of_not_nan hx) (meant_of_not_nan hy) (String.toList_inj.mp hparts.2)
  have hbits : x.bits = y.bits := by
    rw [← UInt64.toNat_inj]
    have hlt : x.bits.toNat < 2 ^ 64 := x.bits.toNat_lt
    have hlt' : y.bits.toNat < 2 ^ 64 := y.bits.toNat_lt
    have hsign := hparts.1
    unfold Double.exponentBits at hexponent
    unfold Double.fractionBits at hfraction
    omega
  exact congrArg Double.mk hbits

/-- The text of a number stands on one line. -/
theorem newline_notMem_text (h : x.isNaN = false) : '\n' ∉ (text x).toList := by
  have hnewline : ¬Char.isDigit '\n' = true := by decide
  rw [text_eq_sign h, List.mem_append]
  rintro (hc | hc)
  · split_ifs at hc
    · exact absurd (List.mem_singleton.mp hc) (by decide)
    · exact absurd hc List.not_mem_nil
  · rcases magnitude_cases (meant_of_not_nan h) with
      ⟨-, -, hinf⟩ | ⟨-, c, whole, fraction, hspelling, hwhole, hfraction, -⟩
    · rw [hinf] at hc
      exact absurd hc (by decide)
    · rw [hspelling] at hc
      rcases mem_spelling hc with hc | hc | hc
      · exact hnewline (hwhole _ hc)
      · exact absurd hc (by decide)
      · exact hnewline (hfraction _ hc)

end Number

end Lox
