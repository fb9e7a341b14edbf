import Lox.Proofs.Lexemes
import Lox.Proofs.Rounding

/-!
# Numbers read back

A number is written with the fewest digits that are read as the same double.

* `Decimal.roundsTo_of_contains` : the points of the interval of a double are rounded to it;
* `Decimal.shortest_contains` : the search for the coarsest grid ends with such a point;
* `Decimal.text_spells` : the text of a decimal number spells it;
* `Number.Plain.text_spelled` : the text of a number is digits, and is read as that number.
-/

namespace Lox

open Float.Model (Format UnpackedFloat)
open Float.Model.UnpackedFloat

namespace Decimal

/-! ## Points of the interval -/

theorem zpow_mul_toNat {b : Nat} (hb : 0 < b) (k : Int) :
    (b : ℚ) ^ k * (Nat.pow b (-k).toNat : Nat) = (Nat.pow b k.toNat : Nat) := by
  have hb' : (b : ℚ) ≠ 0 := by exact_mod_cast hb.ne'
  rw [Nat.pow_eq, Nat.pow_eq, Nat.cast_pow, Nat.cast_pow, ← zpow_natCast, ← zpow_natCast, ← zpow_add₀ hb']
  congr 1
  omega

/-- Comparing a binary number and a decimal one in whole numbers. -/
theorem scaled_le_iff (c n : Nat) (e k : Int) :
    (c * Nat.pow 2 e.toNat * Nat.pow 10 (-k).toNat ≤ n * (Nat.pow 2 (-e).toNat * Nat.pow 10 k.toNat) ↔
        (c : ℚ) * 2 ^ e ≤ n * 10 ^ k) ∧
      (n * (Nat.pow 2 (-e).toNat * Nat.pow 10 k.toNat) ≤ c * Nat.pow 2 e.toNat * Nat.pow 10 (-k).toNat ↔
        (n : ℚ) * 10 ^ k ≤ c * 2 ^ e) := by
  have htwo := zpow_mul_toNat (b := 2) (by decide) e
  have hten := zpow_mul_toNat (b := 10) (by decide) k
  generalize hz : ((Nat.pow 2 (-e).toNat : Nat) : ℚ) * (Nat.pow 10 (-k).toNat : Nat) = z at htwo hten
  have hpos : 0 < z := by
    rw [← hz, Nat.pow_eq, Nat.pow_eq]
    positivity
  have hbinary : ((c * Nat.pow 2 e.toNat * Nat.pow 10 (-k).toNat : Nat) : ℚ) = c * 2 ^ e * z := by
    rw [Nat.cast_mul, Nat.cast_mul, ← htwo, ← hz]
    push_cast
    ring
  have hdecimal : ((n * (Nat.pow 2 (-e).toNat * Nat.pow 10 k.toNat) : Nat) : ℚ) = n * 10 ^ k * z := by
    rw [Nat.cast_mul, Nat.cast_mul, ← hten, ← hz]
    push_cast
    ring
  rw [← Nat.cast_le (α := ℚ), ← Nat.cast_le (α := ℚ), hbinary, hdecimal, mul_le_mul_iff_left₀ hpos,
    mul_le_mul_iff_left₀ hpos]
  exact ⟨Iff.rfl, Iff.rfl⟩

/-- The lower end of the interval, in quarters of a unit. -/
def lowQuarters (m : Nat) (narrow : Bool) : Nat :=
  if narrow then 4 * m - 1 else 4 * m - 2

/-- A point of a grid lies in the interval of a double. -/
theorem contains_iff {m n : Nat} {e k : Int} {narrow : Bool} :
    ((Interval.ofBinary m e narrow).inUnitsOf k).contains n = true ↔
      if m % 2 = 0 then
        lowQuarters m narrow * 2 ^ (e - 2) ≤ (n * 10 ^ k : ℚ) ∧ (n * 10 ^ k : ℚ) ≤ (4 * m + 2 : Nat) * 2 ^ (e - 2)
      else
        lowQuarters m narrow * 2 ^ (e - 2) < (n * 10 ^ k : ℚ) ∧ (n * 10 ^ k : ℚ) < (4 * m + 2 : Nat) * 2 ^ (e - 2) := by
  obtain ⟨hlow, hlow'⟩ := scaled_le_iff (lowQuarters m narrow) n (e - 2) k
  obtain ⟨hhigh, hhigh'⟩ := scaled_le_iff (4 * m + 2) n (e - 2) k
  rw [neg_sub] at hlow hlow' hhigh hhigh'
  rw [← hlow, ← hhigh', ← not_le, ← not_le, ← hlow', ← hhigh, not_le, not_le]
  unfold Interval.contains Interval.inUnitsOf Interval.ofBinary
  by_cases hm : m % 2 = 0
  · simp [hm, lowQuarters]
  · simp [hm, lowQuarters]

/-- The points of the interval of a double are rounded to it. -/
theorem roundsTo_of_contains {m n : Nat} {e k : Int} {narrow : Bool} (hm : 0 < m)
    (hnarrow : narrow = true ↔ m = 2 ^ 52 ∧ -1074 < e)
    (h : ((Interval.ofBinary m e narrow).inUnitsOf k).contains n = true) : RoundsTo (n * 10 ^ k) m e := by
  have hunit : (2 : ℚ) ^ e = 4 * 2 ^ (e - 2) := by
    rw [zpow_sub₀ (by norm_num)]
    field_simp
    norm_num
  have hlow : lowerEnd m e * 2 ^ e = lowQuarters m narrow * 2 ^ (e - 2) := by
    unfold lowerEnd lowQuarters
    rw [hunit]
    by_cases hn : narrow = true
    · rw [if_pos (hnarrow.mp hn), if_pos hn, Nat.cast_sub (by omega)]
      push_cast
      ring
    · rw [if_neg fun h => hn (hnarrow.mpr h), if_neg hn, Nat.cast_sub (by omega)]
      push_cast
      ring
  have hhigh : ((m : ℚ) + 1 / 2) * 2 ^ e = (4 * m + 2 : Nat) * 2 ^ (e - 2) := by
    rw [hunit]
    push_cast
    ring
  rw [contains_iff] at h
  unfold RoundsTo
  rw [hlow, hhigh]
  split_ifs at h with heven
  · rcases h.1.lt_or_eq with hlt | heq
    · rcases h.2.lt_or_eq with hlt' | heq'
      · exact .inl ⟨hlt, hlt'⟩
      · exact .inr ⟨heven, .inr heq'⟩
    · exact .inr ⟨heven, .inl heq.symm⟩
  · exact .inl h

/-! ## The coarsest grid -/

theorem contains_of_nearest? {i : Interval} {n : Nat} (h : i.nearest? = some n) : i.contains n = true := by
  unfold Interval.nearest? at h
  dsimp only at h
  split at h
  · rename_i hbelow habove
    cases h
    split_ifs
    · exact hbelow
    · exact habove
  · rename_i hbelow habove
    cases h
    exact hbelow
  · rename_i hbelow habove
    cases h
    exact habove
  · cases h

/-- The search ends with a point of the interval, if there is one on a grid that it tries. -/
theorem coarsest_found {i : Interval} {tries j : Nat} {exponent : Int} (hj : j < tries)
    (h : (i.inUnitsOf (exponent - j)).nearest? ≠ none) :
    ∃ n k, i.coarsest tries exponent = ⟨n, k⟩ ∧ exponent - j ≤ k ∧ (i.inUnitsOf k).contains n = true := by
  induction tries generalizing j exponent with
  | zero => omega
  | succ tries ih =>
      rw [Interval.coarsest]
      cases hfound : (i.inUnitsOf exponent).nearest? with
      | some n => exact ⟨n, exponent, rfl, by omega, contains_of_nearest? hfound⟩
      | none =>
          cases j with
          | zero =>
              rw [Nat.cast_zero, sub_zero, hfound] at h
              exact absurd rfl h
          | succ j =>
              have hnext : exponent - 1 - (j : Int) = exponent - (j + 1 : Nat) := by omega
              obtain ⟨n, k, hcoarsest, hk, hcontains⟩ := ih (Nat.lt_of_succ_lt_succ hj) (hnext ▸ h)
              exact ⟨n, k, hcoarsest, by omega, hcontains⟩

/-- A decimal unit that is smaller than a binary one: `1000 ≤ 2 ^ 10` and `2 ^ 33 ≤ 10 ^ 10`. -/
theorem ten_zpow_lt_two_zpow {k e : Int} (h : 0 ≤ k ∧ 10 * k < 3 * e ∨ k ≤ 0 ∧ 33 * k < 10 * e) :
    (10 : ℚ) ^ k < 2 ^ e := by
  rcases h with ⟨hk, hlt⟩ | ⟨hk, hlt⟩
  · refine lt_of_pow_lt_pow_left₀ 3 (by positivity) ?_
    calc ((10 : ℚ) ^ k) ^ 3 = (10 ^ 3) ^ k := by rw [← zpow_natCast, ← zpow_natCast, zpow_comm]
      _ ≤ (2 ^ 10) ^ k := zpow_le_zpow_left₀ hk (by norm_num) (by norm_num)
      _ = 2 ^ (10 * k) := by rw [zpow_mul]; norm_cast
      _ < 2 ^ (3 * e) := zpow_lt_iff.mpr hlt
      _ = (2 ^ e) ^ 3 := by rw [mul_comm, zpow_mul]; norm_cast
  · have hinv := zpow_le_zpow_left₀ (neg_nonneg.mpr hk) (by norm_num) (by norm_num : (2 : ℚ) ^ 33 ≤ 10 ^ 10)
    rw [zpow_neg, zpow_neg] at hinv
    refine lt_of_pow_lt_pow_left₀ 10 (by positivity) ?_
    calc ((10 : ℚ) ^ k) ^ 10 = (10 ^ 10) ^ k := by rw [← zpow_natCast, ← zpow_natCast, zpow_comm]
      _ ≤ (2 ^ 33) ^ k := (inv_le_inv₀ (by positivity) (by positivity)).mp hinv
      _ = 2 ^ (33 * k) := by rw [zpow_mul]; norm_cast
      _ < 2 ^ (10 * e) := zpow_lt_iff.mpr hlt
      _ = (2 ^ e) ^ 10 := by rw [mul_comm, zpow_mul]; norm_cast

/-- The point of a grid below the double, and the next one. -/
theorem below_bounds {m : Nat} {e k : Int} {narrow : Bool} {i : Interval}
    (hi : i = (Interval.ofBinary m e narrow).inUnitsOf k) :
    ((i.value / i.denominator : Nat) * 10 ^ k : ℚ) ≤ (4 * m : Nat) * 2 ^ (e - 2) ∧
      (4 * m : Nat) * 2 ^ (e - 2) < ((i.value / i.denominator + 1 : Nat) * 10 ^ k : ℚ) := by
  have hvalue : i.value = 4 * m * Nat.pow 2 (e - 2).toNat * Nat.pow 10 (-k).toNat := by rw [hi]; rfl
  have hdenominator : i.denominator = Nat.pow 2 (-(e - 2)).toNat * Nat.pow 10 k.toNat := by rw [hi, neg_sub]; rfl
  have hpos : 0 < i.denominator := by
    rw [hdenominator, Nat.pow_eq, Nat.pow_eq]
    positivity
  constructor
  · rw [← (scaled_le_iff _ _ _ _).2, ← hvalue, ← hdenominator]
    exact Nat.div_mul_le_self _ _
  · rw [← not_le, ← (scaled_le_iff _ _ _ _).2, ← hvalue, ← hdenominator, not_le, ← Nat.div_lt_iff_lt_mul hpos]
    exact Nat.lt_succ_self _

/-- A grid that is finer than half the distance of the doubles has a point in the interval. -/
theorem nearest?_ne_none {m : Nat} {e k : Int} {narrow : Bool} (hm : 0 < m) (hk : (10 : ℚ) ^ k < 2 ^ (e - 1)) :
    ((Interval.ofBinary m e narrow).inUnitsOf k).nearest? ≠ none := by
  generalize hi : (Interval.ofBinary m e narrow).inUnitsOf k = i
  obtain ⟨hbelow, habove⟩ := below_bounds hi.symm
  have hcontains : i.contains (i.value / i.denominator + 1) = true := by
    have hunit : (2 : ℚ) ^ (e - 1) = 2 * 2 ^ (e - 2) := by
      rw [← zpow_one_add₀ (by norm_num)]
      congr 1
      omega
    have hlow : (lowQuarters m narrow : ℚ) * 2 ^ (e - 2) ≤ (4 * m : Nat) * 2 ^ (e - 2) := by
      refine mul_le_mul_of_nonneg_right ?_ (by positivity)
      rw [Nat.cast_le, lowQuarters]
      split <;> omega
    have hlow' := hlow.trans_lt habove
    have hhigh : ((i.value / i.denominator + 1 : Nat) * 10 ^ k : ℚ) < (4 * m + 2 : Nat) * 2 ^ (e - 2) := by
      push_cast at hbelow ⊢
      rw [hunit] at hk
      linarith
    rw [← hi, contains_iff, hi]
    split
    · exact ⟨hlow'.le, hhigh.le⟩
    · exact ⟨hlow', hhigh⟩
  unfold Interval.nearest?
  dsimp only
  rw [hcontains]
  cases i.contains (i.value / i.denominator) <;> simp

/-- The search ends with a point of the interval: the last grid but one is finer than the doubles. -/
theorem shortest_contains {m : Nat} {e : Int} (narrow : Bool) (hm : Canonical m e) (he : e ≤ 971) :
    ∃ n k, shortest m e narrow = ⟨n, k⟩ ∧ -2048 ≤ k ∧
      ((Interval.ofBinary m e narrow).inUnitsOf k).contains n = true := by
  have hlog : m.log2 < 53 := (Nat.log2_lt hm.pos.ne').mpr hm.lt
  have hleast := hm.least
  have hfine : (10 : ℚ) ^ (exponentAbove m e - (20 : Nat)) < 2 ^ (e - 1) := by
    refine ten_zpow_lt_two_zpow ?_
    unfold exponentAbove
    omega
  obtain ⟨n, k, hshortest, hk, hcontains⟩ :=
    coarsest_found (i := Interval.ofBinary m e narrow) (by decide : 20 < 21) (nearest?_ne_none hm.pos hfine)
  refine ⟨n, k, hshortest, ?_, hcontains⟩
  unfold exponentAbove at hk
  omega

theorem pos_of_contains {m n : Nat} {e k : Int} {narrow : Bool} (hm : 0 < m)
    (h : ((Interval.ofBinary m e narrow).inUnitsOf k).contains n = true) : 0 < n := by
  rw [contains_iff] at h
  have hlow : (0 : ℚ) < lowQuarters m narrow * 2 ^ (e - 2) := by
    refine mul_pos (Nat.cast_pos.mpr ?_) (by positivity)
    unfold lowQuarters
    split <;> omega
  have hpoint : (0 : ℚ) < n * 10 ^ k := by
    split at h
    · exact hlow.trans_le h.1
    · exact hlow.trans h.1
  exact Nat.cast_pos.mp (pos_of_mul_pos_left hpoint (by positivity))

/-! ## Digits -/

theorem ofDigits_append (cs ds : List Char) :
    Number.ofDigits (cs ++ ds) = Nat.ofDigitChars 10 ds (Number.ofDigits cs) :=
  Nat.ofDigitChars_append 0

theorem ofDigits_toDigits (n : Nat) : Number.ofDigits (Nat.toDigits 10 n) = n :=
  Nat.ofDigitChars_ten_toDigits

theorem isDigit_of_mem_toDigits {n : Nat} {c : Char} (h : c ∈ Nat.toDigits 10 n) : c.isDigit = true :=
  Nat.isDigit_of_mem_toDigits (by decide) (by decide) h

theorem isDigit_of_mem_zeros {n : Nat} {c : Char} (h : c ∈ List.replicate n '0') : c.isDigit = true := by
  rw [List.eq_of_mem_replicate h]
  rfl

/-- These digits before and after the decimal point spell the number. -/
structure Spells (whole fraction : List Char) (d : Decimal) : Prop where
  whole_ne_nil : whole ≠ []
  whole_isDigit : ∀ c ∈ whole, c.isDigit = true
  fraction_isDigit : ∀ c ∈ fraction, c.isDigit = true
  fraction_length : fraction.length ≤ (-d.exponent).toNat
  value : (Number.ofDigits (whole ++ fraction) : ℚ) / 10 ^ fraction.length = d.digits * 10 ^ d.exponent

/-- A whole number is filled up with zeros. -/
theorem spells_whole (n j : Nat) : Spells (Nat.toDigits 10 n ++ List.replicate j '0') [] ⟨n, j⟩ where
  whole_ne_nil h := Nat.toDigits_ne_nil (List.append_eq_nil_iff.mp h).1
  whole_isDigit _ hc := (List.mem_append.mp hc).elim isDigit_of_mem_toDigits isDigit_of_mem_zeros
  fraction_isDigit := by simp
  fraction_length := Nat.zero_le _
  value := by
    rw [List.append_nil, ofDigits_append, ofDigits_toDigits, Nat.ofDigitChars_replicate_zero, List.length_nil,
      zpow_natCast]
    push_cast
    ring

/-- The decimal point stands between the digits. -/
theorem spells_between {n j : Nat} (h : j < (Nat.toDigits 10 n).length) :
    Spells ((Nat.toDigits 10 n).take ((Nat.toDigits 10 n).length - j))
      ((Nat.toDigits 10 n).drop ((Nat.toDigits 10 n).length - j)) ⟨n, -j⟩ := by
  have hlength : ((Nat.toDigits 10 n).drop ((Nat.toDigits 10 n).length - j)).length = j := by
    rw [List.length_drop]
    omega
  refine ⟨fun hnil => ?_, ?_, ?_, ?_, ?_⟩
  · have := congrArg List.length hnil
    rw [List.length_take, List.length_nil] at this
    omega
  · exact fun c hc => isDigit_of_mem_toDigits (List.mem_of_mem_take hc)
  · exact fun c hc => isDigit_of_mem_toDigits (List.mem_of_mem_drop hc)
  · rw [hlength, neg_neg, Int.toNat_natCast]
  · rw [List.take_append_drop, ofDigits_toDigits, hlength, zpow_neg, zpow_natCast, div_eq_mul_inv]

/-- The decimal point stands in front of the digits. -/
theorem spells_behind {n j : Nat} (h : (Nat.toDigits 10 n).length ≤ j) :
    Spells ['0'] (List.replicate (j - (Nat.toDigits 10 n).length) '0' ++ Nat.toDigits 10 n) ⟨n, -j⟩ := by
  have hlength : (List.replicate (j - (Nat.toDigits 10 n).length) '0' ++ Nat.toDigits 10 n).length = j := by
    rw [List.length_append, List.length_replicate]
    omega
  have hzeros : Number.ofDigits (['0'] ++ List.replicate (j - (Nat.toDigits 10 n).length) '0') = 0 := by
    rw [ofDigits_append, Nat.ofDigitChars_replicate_zero]
    rfl
  have hdigits : Nat.ofDigitChars 10 (Nat.toDigits 10 n) 0 = n := ofDigits_toDigits n
  refine ⟨by simp, by simp, fun c hc => ?_, ?_, ?_⟩
  · exact (List.mem_append.mp hc).elim isDigit_of_mem_zeros isDigit_of_mem_toDigits
  · rw [hlength, neg_neg, Int.toNat_natCast]
  · rw [hlength, ← List.append_assoc, ofDigits_append, hzeros, hdigits, zpow_neg, zpow_natCast, div_eq_mul_inv]

/-- The text of a decimal number spells it. -/
theorem text_spells (d : Decimal) :
    ∃ whole fraction, d.text.toList = Number.spelling whole fraction ∧ Spells whole fraction d := by
  obtain ⟨n, k⟩ := d
  have hsome : Nat.toDigits 10 n ≠ [] := Nat.toDigits_ne_nil
  unfold text
  dsimp only
  split_ifs with hk hplaces
  · obtain ⟨j, rfl⟩ := Int.eq_ofNat_of_zero_le hk
    refine ⟨_, _, ?_, spells_whole n j⟩
    rw [String.toList_ofList, Int.toNat_natCast]
    exact (List.append_nil _).symm
  · obtain ⟨j, rfl⟩ : ∃ j : Nat, k = -j := ⟨(-k).toNat, by omega⟩
    rw [neg_neg, Int.toNat_natCast] at hplaces ⊢
    refine ⟨_, _, ?_, spells_between hplaces⟩
    rw [String.toList_ofList, Number.spelling, if_neg]
    rw [List.drop_eq_nil_iff]
    omega
  · obtain ⟨j, rfl⟩ : ∃ j : Nat, k = -j := ⟨(-k).toNat, by omega⟩
    rw [neg_neg, Int.toNat_natCast] at hplaces ⊢
    refine ⟨_, _, ?_, spells_behind (Nat.le_of_not_lt hplaces)⟩
    rw [String.toList_ofList, Number.spelling, if_neg fun h => hsome (List.append_eq_nil_iff.mp h).2]
    rfl

end Decimal

namespace Number

/-! ## The text of a number -/

/-- The digits of the shortest decimal number of a double are read as the double. -/
theorem read_of_spells {m : Nat} {e : Int} {narrow : Bool} {whole fraction : List Char} (hm : Canonical m e)
    (he : e ≤ 971) (hnarrow : narrow = true ↔ m = 2 ^ 52 ∧ -1074 < e)
    (h : Decimal.Spells whole fraction (Decimal.shortest m e narrow)) :
    read whole fraction = .ofFloat (.ofModel (.pack (.finite .positive m e hm.pos))) := by
  obtain ⟨n, k, hshortest, hk, hcontains⟩ := Decimal.shortest_contains narrow hm he
  have hround := Decimal.roundsTo_of_contains hm.pos hnarrow hcontains
  have hn := Decimal.pos_of_contains hm.pos hcontains
  rw [hshortest] at h
  have hpos : 0 < ofDigits (whole ++ fraction) := by
    have hvalue : (0 : ℚ) < ofDigits (whole ++ fraction) / 10 ^ fraction.length := by
      rw [h.value]
      positivity
    by_contra hzero
    rw [Nat.eq_zero_of_not_pos hzero, Nat.cast_zero, zero_div] at hvalue
    exact lt_irrefl _ hvalue
  have hlength := h.fraction_length
  refine congrArg Double.ofFloat (ofScientific_eq hpos (by dsimp only at hlength; omega) hm ?_)
  rw [h.value]
  exact hround

structure Plain (x : Double) : Prop where
  finite : x.exponentBits < 2047
  unsigned : x.bits < 0x8000000000000000

instance (x : Double) : Decidable (Plain x) :=
  decidable_of_iff (_ ∧ _) ⟨fun h => ⟨h.1, h.2⟩, fun h => ⟨h.finite, h.unsigned⟩⟩

namespace Plain

variable {x : Double} (h : Plain x)

include h

theorem toNat_lt : x.bits.toNat < 2 ^ 63 :=
  UInt64.lt_iff_toNat_lt.mp h.unsigned

theorem sign : @unpackSign Format.binary64 x.bits.toBitVec = Sign.positive.toBitVec :=
  unpackSign_of_lt h.toNat_lt

theorem isNaN_eq : x.isNaN = false :=
  Double.isNaN_eq_false.mpr fun hones => absurd hones h.finite.ne

theorem text_eq_magnitude : text x = magnitude x.exponentBits x.fractionBits := by
  have hunsigned := h.toNat_lt
  unfold text
  rw [Double.fields_eq, h.isNaN_eq, decide_eq_false (by omega)]
  rfl

/-- A plain number is zero or a mantissa and an exponent, and is written as such. -/
theorem text_eq :
    x = ⟨0⟩ ∧ text x = "0" ∨
      ∃ (m : Nat) (e : Int) (narrow : Bool) (hm : Canonical m e), e ≤ 971 ∧
        (narrow = true ↔ m = 2 ^ 52 ∧ -1074 < e) ∧ x = .ofFloat (.ofModel (.pack (.finite .positive m e hm.pos))) ∧
        text x = (Decimal.shortest m e narrow).text := by
  have hbits : x = .ofFloat (.ofModel (.pack (unpack Format.binary64 x.bits.toBitVec))) :=
    (Double.ofFloat_toFloat h.isNaN_eq).symm
  have hlt := h.finite
  have hfraction : x.fractionBits < 2 ^ 52 := Nat.mod_lt _ (by decide)
  rw [h.text_eq_magnitude]
  unfold magnitude
  rw [if_neg hlt.ne]
  by_cases hexponent : x.exponentBits = 0
  · rw [if_pos hexponent]
    by_cases hzero : x.fractionBits = 0
    · refine .inl ⟨?_, if_pos hzero⟩
      have hunsigned := h.toNat_lt
      unfold Double.exponentBits at hexponent
      unfold Double.fractionBits at hzero
      have hnone : x.bits = 0 := UInt64.toNat_inj.mp (by rw [UInt64.toNat_zero]; omega)
      exact congrArg Double.mk hnone
    · have hpos : 0 < x.fractionBits := Nat.pos_of_ne_zero hzero
      refine .inr ⟨_, _, false, ⟨hpos, by omega, le_refl _, .inr rfl⟩, by decide, by simp, ?_, if_neg hzero⟩
      rw [unpack_subnormal hpos h.sign (unpackMantissa_toNat _) ((unpackExponent_toNat _).trans hexponent)] at hbits
      exact hbits
  · have hpos : 0 < 2 ^ 52 + x.fractionBits := by positivity
    rw [if_neg hexponent]
    refine .inr ⟨_, _, _, ⟨hpos, ?_, ?_, .inl ?_⟩, ?_, ?_, ?_, rfl⟩
    · omega
    · omega
    · exact Nat.le_add_right _ _
    · omega
    · simp only [Bool.and_eq_true, decide_eq_true_eq]
      omega
    · rw [unpack_normal hpos h.sign (unpackMantissa_toNat _) (unpackExponent_toNat _) (Nat.pos_of_ne_zero hexponent)
        hlt] at hbits
      exact hbits

/-- **The text of a finite number without a sign is a row of digits that is read as the number.** -/
theorem text_spelled : ∃ whole fraction, (text x).toList = spelling whole fraction ∧ whole ≠ [] ∧
    (∀ c ∈ whole, c.isDigit = true) ∧ (∀ c ∈ fraction, c.isDigit = true) ∧ read whole fraction = x := by
  rcases h.text_eq with ⟨hzero, htext⟩ | ⟨m, e, narrow, hm, he, hnarrow, hvalue, htext⟩
  · refine ⟨['0'], [], by rw [htext]; rfl, by simp, by simp, by simp, ?_⟩
    rw [hzero]
    rfl
  · obtain ⟨whole, fraction, hspelling, hspells⟩ := (Decimal.shortest m e narrow).text_spells
    refine ⟨whole, fraction, by rw [htext, hspelling], hspells.whole_ne_nil, hspells.whole_isDigit,
      hspells.fraction_isDigit, ?_⟩
    rw [hvalue]
    exact read_of_spells hm he hnarrow hspells

end Plain

end Number

end Lox
