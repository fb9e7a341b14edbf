import Mathlib.Algebra.Order.Field.Basic
import Mathlib.Algebra.Order.Field.Power
import Mathlib.Algebra.Order.Field.Rat
import Mathlib.Tactic.FieldSimp
import Mathlib.Tactic.IntervalCases
import Mathlib.Tactic.Linarith
import Mathlib.Tactic.Ring
import Lox.Proofs.Double

/-!
# Rounding to a double

Decimal digits are read by exact arithmetic on whole numbers and one rounding at the end. Here this is compared with
the rational number that the digits spell.

* `Represents` : the number that a mantissa stands for, together with the two bits that rounding looks at;
* `RoundsTo` : the rational numbers to which a double is the nearest, and of two the even one;
* `roundWithAccuracy_eq`, `div_eq` : rounding and division give the nearest double;
* `ofScientific_eq` : so does reading decimal digits.
-/

namespace Lox

open Float.Model (Format UnpackedFloat totalExponent)
open Float.Model.UnpackedFloat

/-! ## Residual bits -/

/-- What the round bit and the sticky bit say about the part of a number behind its last digit. -/
def Residue : Bool → Bool → ℚ → Prop
  | false, false, f => f = 0
  | false, true, f => 0 < f ∧ f < 1 / 2
  | true, false, f => f = 1 / 2
  | true, true, f => 1 / 2 < f ∧ f < 1

def Represents (em : ExtendedMantissa) (q : ℚ) : Prop :=
  Residue em.roundBit em.stickyBit (q - em.mantissa)

/-- The whole number is the nearest, and of two the even one. -/
def Nearest (n : Nat) (q : ℚ) : Prop :=
  (n - 1 / 2 < q ∧ q < n + 1 / 2) ∨ n % 2 = 0 ∧ (q = n - 1 / 2 ∨ q = n + 1 / 2)

theorem represents_exact (m : Nat) : Represents (.ofMantissaAndAccuracy m .exact) m :=
  sub_self _

/-- Division with remainder leaves all that rounding needs. -/
theorem represents_div (n : Nat) {d : Nat} (hd : 0 < d) :
    Represents (.ofMantissaAndAccuracy (n / d) (accuracyOfFraction (n % d) d)) ((n : ℚ) / d) := by
  have hd' : (0 : ℚ) < d := by exact_mod_cast hd
  have hrest : (n : ℚ) / d - (n / d : Nat) = (n % d : Nat) / d := by
    have hsplit : (n : ℚ) = d * (n / d : Nat) + (n % d : Nat) := by exact_mod_cast (Nat.div_add_mod n d).symm
    field_simp
    linarith
  have hlt : ((n % d : Nat) : ℚ) < d := by exact_mod_cast Nat.mod_lt n hd
  unfold accuracyOfFraction
  split_ifs with hzero
  · rw [Represents]
    simp only [ExtendedMantissa.ofMantissaAndAccuracy]
    rw [hrest, hzero]
    simp [Residue]
  · have hpos : (0 : ℚ) < (n % d : Nat) := by exact_mod_cast Nat.pos_of_ne_zero hzero
    cases hcompare : compare (2 * (n % d)) d with
    | lt =>
        have h : 2 * ((n % d : Nat) : ℚ) < d := by exact_mod_cast compare_lt_iff_lt.mp hcompare
        rw [Represents]
        simp only [ExtendedMantissa.ofMantissaAndAccuracy, hrest, Residue]
        exact ⟨by positivity, by rw [div_lt_iff₀ hd']; linarith⟩
    | eq =>
        have h : 2 * ((n % d : Nat) : ℚ) = d := by exact_mod_cast compare_eq_iff_eq.mp hcompare
        rw [Represents]
        simp only [ExtendedMantissa.ofMantissaAndAccuracy, hrest, Residue]
        rw [div_eq_iff hd'.ne']
        linarith
    | gt =>
        have h : (d : ℚ) < 2 * ((n % d : Nat) : ℚ) := by exact_mod_cast compare_gt_iff_gt.mp hcompare
        rw [Represents]
        simp only [ExtendedMantissa.ofMantissaAndAccuracy, hrest, Residue]
        exact ⟨by rw [lt_div_iff₀ hd']; linarith, by rw [div_lt_one hd']; exact hlt⟩

/-- A digit more in front of the point. -/
theorem Residue.half {r s : Bool} {f : ℚ} (h : Residue r s f) :
    Residue false (r || s) (f / 2) ∧ Residue true (r || s) ((1 + f) / 2) := by
  cases r <;> cases s <;> simp only [Residue, Bool.or_false, Bool.or_true, Bool.or_self] at h ⊢
  · rw [h]
    norm_num
  all_goals exact ⟨⟨by linarith, by linarith⟩, by linarith, by linarith⟩

namespace Represents

variable {em : ExtendedMantissa} {q : ℚ}

/-- The mantissa is the whole part. -/
theorem bounds (h : Represents em q) : (em.mantissa : ℚ) ≤ q ∧ q < em.mantissa + 1 := by
  obtain ⟨m, r, s⟩ := em
  cases r <;> cases s <;> simp only [Represents, Residue] at h <;> constructor <;> linarith

theorem shiftRightOne (h : Represents em q) : Represents em.shiftRightOne (q / 2) := by
  have hm : (em.mantissa : ℚ) = 2 * (em.mantissa / 2 : Nat) + (em.mantissa % 2 : Nat) := by
    exact_mod_cast (Nat.div_add_mod em.mantissa 2).symm
  unfold Represents ExtendedMantissa.shiftRightOne
  rcases Nat.mod_two_eq_zero_or_one em.mantissa with hbit | hbit
  · rw [hbit] at hm ⊢
    have hf : q / 2 - (em.mantissa / 2 : Nat) = (q - em.mantissa) / 2 := by rw [hm]; push_cast; ring
    rw [hf]
    exact (Residue.half h).1
  · rw [hbit] at hm ⊢
    have hf : q / 2 - (em.mantissa / 2 : Nat) = (1 + (q - em.mantissa)) / 2 := by rw [hm]; push_cast; ring
    rw [hf]
    exact (Residue.half h).2

theorem shiftRight (h : Represents em q) (n : Nat) : Represents (em >>> n) (q / 2 ^ n) := by
  change Represents (n.repeat ExtendedMantissa.shiftRightOne em) (q / 2 ^ n)
  induction n with
  | zero => simpa [Nat.repeat] using h
  | succ n ih =>
      rw [Nat.repeat, pow_succ, ← div_div]
      exact ih.shiftRightOne

/-- Rounding gives the nearest whole number. -/
theorem roundedMantissa_eq (h : Represents em q) {n : Nat} (hn : Nearest n q) : em.roundedMantissa = n := by
  have hle : (n : ℚ) - 1 / 2 ≤ q ∧ q ≤ n + 1 / 2 := by
    rcases hn with ⟨hlow, hhigh⟩ | ⟨-, hq | hq⟩
    · exact ⟨hlow.le, hhigh.le⟩
    · constructor <;> linarith
    · constructor <;> linarith
  have hnat : ∀ {k l : Nat}, (k : ℚ) < l + 1 → k ≤ l := fun h => Nat.lt_succ_iff.mp (by exact_mod_cast h)
  obtain ⟨m, r, s⟩ := em
  cases r <;> cases s <;> simp only [Represents, Residue] at h
  · show m = n
    exact Nat.le_antisymm (hnat (by linarith)) (hnat (by linarith))
  · show m = n
    exact Nat.le_antisymm (hnat (by linarith)) (hnat (by linarith))
  · show m + m % 2 = n
    rcases hn with ⟨hlow, hhigh⟩ | ⟨heven, hq | hq⟩
    · have hlt : n ≤ m := hnat (by linarith)
      have hgt : m + 1 ≤ n := hnat (by push_cast; linarith)
      omega
    · have hnm : n = m + 1 := by exact_mod_cast (by linarith : (n : ℚ) = m + 1)
      omega
    · have hnm : n = m := by exact_mod_cast (by linarith : (n : ℚ) = m)
      omega
  · have hlow : m + 1 ≤ n := hnat (by push_cast; linarith)
    have hhigh : n ≤ m + 1 := hnat (by push_cast; linarith)
    exact Nat.le_antisymm hlow hhigh

end Represents

/-! ## The nearest double -/

structure Canonical (m : Nat) (e : Int) : Prop where
  pos : 0 < m
  lt : m < 2 ^ 53
  least : -1074 ≤ e
  normal : 2 ^ 52 ≤ m ∨ e = -1074

/-- Where the numbers begin that round to `m * 2 ^ e`, in units of `2 ^ e`: half way to the number below, which lies half
a unit away below the least mantissa of a binade. -/
def lowerEnd (m : Nat) (e : Int) : ℚ :=
  if m = 2 ^ 52 ∧ -1074 < e then m - 1 / 4 else m - 1 / 2

/-- The double `m * 2 ^ e` is the nearest, and of two the even one. -/
def RoundsTo (v : ℚ) (m : Nat) (e : Int) : Prop :=
  (lowerEnd m e * 2 ^ e < v ∧ v < (m + 1 / 2) * 2 ^ e) ∨
    m % 2 = 0 ∧ (v = lowerEnd m e * 2 ^ e ∨ v = (m + 1 / 2) * 2 ^ e)

theorem zpow_lt_iff {a b : Int} : (2 : ℚ) ^ a < 2 ^ b ↔ a < b :=
  zpow_lt_zpow_iff_right₀ (by norm_num)

theorem targetExponent_eq (t : Int) : Format.binary64.targetExponent t = max (t - 53) (-1074) := by
  rfl

/-- The binade of a number with the whole part `m` in units of `2 ^ e`. -/
theorem log2_bounds {m : Nat} (hm : m ≠ 0) {q : ℚ} (hlow : (m : ℚ) ≤ q) (hhigh : q < m + 1) (e : Int) :
    (2 : ℚ) ^ (m.log2 + e) ≤ q * 2 ^ e ∧ q * 2 ^ e < 2 ^ (m.log2 + 1 + e) := by
  have hpos : (0 : ℚ) < 2 ^ e := zpow_pos (by norm_num) e
  have h₁ : (2 : ℚ) ^ m.log2 ≤ m := by exact_mod_cast Nat.log2_self_le hm
  have h₂ : (m : ℚ) + 1 ≤ 2 ^ (m.log2 + 1) := by exact_mod_cast Nat.lt_log2_self
  constructor
  · rw [zpow_add₀ (by norm_num), zpow_natCast]
    gcongr
    linarith
  · rw [zpow_add₀ (by norm_num)]
    gcongr
    calc q < m + 1 := hhigh
      _ ≤ 2 ^ (m.log2 + 1) := h₂
      _ = 2 ^ ((m.log2 : Int) + 1) := by norm_cast

/-- Where the exponent is the right one already, nothing is shifted. -/
theorem shiftToTargetExponent_same {m : Nat} {e : Int} (h : Format.binary64.targetExponent (totalExponent m e) = e) :
    shiftToTargetExponent Format.binary64 m e .exact = (⟨m, false, false⟩, e) := by
  have hshift : (e - e).toNat = 0 := by omega
  unfold shiftToTargetExponent shiftToExponent
  rw [h]
  dsimp only
  rw [hshift, Nat.cast_zero, add_zero]
  rfl

theorem targetExponent_of_canonical {m : Nat} {e : Int} (h : Canonical m e) :
    Format.binary64.targetExponent (totalExponent m e) = e := by
  have hlog : m.log2 < 53 := (Nat.log2_lt h.pos.ne').mpr h.lt
  rw [targetExponent_eq, totalExponent]
  rcases h.normal with hnormal | hleast
  · have hlog' : 52 ≤ m.log2 := (Nat.le_log2 h.pos.ne').mpr hnormal
    have := h.least
    omega
  · omega

/-- Rounding to a mantissa in the binade of the number; it may still have become one bit too long. -/
theorem roundWithAccuracy_of_target {m n : Nat} {e t e' : Int} {acc : Accuracy} {q : ℚ} {em : ExtendedMantissa}
    (hem : Represents (.ofMantissaAndAccuracy m acc) q)
    (ht : Format.binary64.targetExponent (totalExponent m e) = t) (he : e ≤ t) (hn : Nearest n (q * 2 ^ e / 2 ^ t))
    (hlast : shiftToTargetExponent Format.binary64 n t .exact = (em, e')) (hpos : 0 < em.mantissa) (s : Sign) :
    roundWithAccuracy Format.binary64 s m e acc = .finite s em.mantissa e' hpos := by
  obtain ⟨k, rfl⟩ := Int.le.dest he
  have hshift : (e + k - e).toNat = k := by omega
  have hfirst : shiftToTargetExponent Format.binary64 m e acc =
      (ExtendedMantissa.ofMantissaAndAccuracy m acc >>> k, e + k) := by
    unfold shiftToTargetExponent shiftToExponent
    rw [ht]
    dsimp only
    rw [hshift]
  have hrounded : (ExtendedMantissa.ofMantissaAndAccuracy m acc >>> k).roundedMantissa = n := by
    refine (hem.shiftRight k).roundedMantissa_eq ?_
    have hq : q * 2 ^ e / 2 ^ (e + (k : Int)) = q / 2 ^ k := by
      rw [zpow_add₀ (by norm_num), zpow_natCast]
      field_simp
    rwa [hq] at hn
  unfold roundWithAccuracy
  rw [hfirst]
  dsimp only
  rw [hrounded, hlast]
  dsimp only
  rw [dif_neg hpos.ne']

theorem mantissa_ofMantissaAndAccuracy (m : Nat) (acc : Accuracy) :
    (ExtendedMantissa.ofMantissaAndAccuracy m acc).mantissa = m := by
  cases acc with
  | exact => rfl
  | inexact o => cases o <;> rfl

/-- The exponent that rounding aims at is that of the binade of the number. -/
theorem targetExponent_of_window {m : Nat} {e K t : Int} {q : ℚ} (hlow : (m : ℚ) ≤ q) (hhigh : q < m + 1)
    (hK : 2 ^ K ≤ q * 2 ^ e) (he : e ≤ max (K - 52) (-1074)) (ht : -1074 ≤ t)
    (hbinade : 2 ^ (52 + t) ≤ q * 2 ^ e ∨ t = -1074) (hbelow : q * 2 ^ e < 2 ^ (53 + t)) :
    Format.binary64.targetExponent (totalExponent m e) = t ∧ e ≤ t := by
  have hKt : K < 53 + t := zpow_lt_iff.mp (hK.trans_lt hbelow)
  refine ⟨?_, by omega⟩
  rw [targetExponent_eq, totalExponent]
  by_cases hm : m = 0
  · subst hm
    have hlt : q * 2 ^ e < 2 ^ e := by
      have hpos : (0 : ℚ) < 2 ^ e := zpow_pos (by norm_num) e
      rw [Nat.cast_zero, zero_add] at hhigh
      nlinarith
    have hKe : K < e := zpow_lt_iff.mp (hK.trans_lt hlt)
    rcases hbinade with hbinade | rfl
    · have hte : 52 + t < e := zpow_lt_iff.mp (hbinade.trans_lt hlt)
      omega
    · rw [Nat.log2_zero]
      omega
  · obtain ⟨hge, hlt⟩ := log2_bounds hm hlow hhigh e
    have habove : m.log2 + e < 53 + t := zpow_lt_iff.mp (hge.trans_lt hbelow)
    rcases hbinade with hbinade | rfl
    · have hte : 52 + t < m.log2 + 1 + e := zpow_lt_iff.mp (hbinade.trans_lt hlt)
      omega
    · omega

theorem roundsTo_iff {w : ℚ} {m : Nat} {e : Int} :
    RoundsTo (w * 2 ^ e) m e ↔
      (lowerEnd m e < w ∧ w < m + 1 / 2) ∨ m % 2 = 0 ∧ (w = lowerEnd m e ∨ w = m + 1 / 2) := by
  have hpos : (0 : ℚ) < 2 ^ e := zpow_pos (by norm_num) e
  unfold RoundsTo
  rw [mul_lt_mul_iff_left₀ hpos, mul_lt_mul_iff_left₀ hpos, mul_left_inj' hpos.ne', mul_left_inj' hpos.ne']

theorem lowerEnd_lt (m : Nat) (e : Int) : lowerEnd m e < m := by
  unfold lowerEnd
  split_ifs <;> linarith

/-- In the binade of the double, the nearest double is the nearest whole number of units. -/
theorem nearest_of_roundsTo {w : ℚ} {m : Nat} {e : Int} (h : RoundsTo (w * 2 ^ e) m e)
    (hbinade : 2 ^ 52 ≤ w ∨ e = -1074) : Nearest m w := by
  rw [roundsTo_iff] at h
  unfold lowerEnd at h
  split_ifs at h with hnarrow
  · obtain ⟨hm, hleast⟩ := hnarrow
    have hw : (m : ℚ) ≤ w := by
      rcases hbinade with hbinade | rfl
      · rw [hm]
        exact_mod_cast hbinade
      · omega
    rcases h with ⟨-, hhigh⟩ | ⟨heven, h | h⟩
    · exact .inl ⟨by linarith, hhigh⟩
    · exact .inl ⟨by linarith, by linarith⟩
    · exact .inr ⟨heven, .inr h⟩
  · exact h

/-- Below the least mantissa of a binade the numbers that round up to it are in the binade below. -/
theorem nearest_of_narrow {w : ℚ} {m : Nat} {e : Int} (hm : Canonical m e) (h : RoundsTo (w * 2 ^ e) m e)
    (hw : w < 2 ^ 52) (he : e ≠ -1074) : m = 2 ^ 52 ∧ -1074 < e ∧ Nearest (2 ^ 53) (2 * w) := by
  have hleast : -1074 < e := lt_of_le_of_ne hm.least (Ne.symm he)
  have hnormal : 2 ^ 52 ≤ m := hm.normal.resolve_right he
  have hle : lowerEnd m e ≤ w := by
    rw [roundsTo_iff] at h
    rcases h with ⟨hlow, -⟩ | ⟨-, h | h⟩
    · exact hlow.le
    · exact h.ge
    · have := lowerEnd_lt m e
      linarith
  have hm52 : m = 2 ^ 52 := by
    by_contra hne
    have hgt : (2 ^ 52 : ℚ) + 1 ≤ m := by exact_mod_cast Nat.lt_of_le_of_ne hnormal (Ne.symm hne)
    rw [lowerEnd, if_neg fun h => hne h.1] at hle
    linarith
  subst hm52
  rw [lowerEnd, if_pos ⟨rfl, hleast⟩] at hle
  push_cast at hle
  refine ⟨rfl, hleast, ?_⟩
  rcases hle.lt_or_eq with hlt | heq
  · exact .inl ⟨by push_cast; linarith, by push_cast; linarith⟩
  · exact .inr ⟨by decide, .inl (by push_cast; linarith)⟩

/-- Rounding a number that is `w` units of the exponent of its binade. -/
theorem roundWithAccuracy_of_binade {m n : Nat} {e K t e' : Int} {acc : Accuracy} {q w : ℚ} {em : ExtendedMantissa}
    (hem : Represents (.ofMantissaAndAccuracy m acc) q) (hw : q * 2 ^ e = w * 2 ^ t) (hK : 2 ^ K ≤ q * 2 ^ e)
    (he : e ≤ max (K - 52) (-1074)) (ht : -1074 ≤ t) (hbinade : 2 ^ 52 ≤ w ∨ t = -1074) (hbelow : w < 2 ^ 53)
    (hn : Nearest n w) (hlast : shiftToTargetExponent Format.binary64 n t .exact = (em, e')) (hpos : 0 < em.mantissa)
    (s : Sign) : roundWithAccuracy Format.binary64 s m e acc = .finite s em.mantissa e' hpos := by
  have hunit : (0 : ℚ) < 2 ^ t := zpow_pos (by norm_num) t
  have hunits : ∀ k : Nat, (2 : ℚ) ^ (k + t) = 2 ^ k * 2 ^ t := fun k => by
    rw [zpow_add₀ (by norm_num), zpow_natCast]
  obtain ⟨hlow, hhigh⟩ := hem.bounds
  rw [mantissa_ofMantissaAndAccuracy] at hlow hhigh
  have hbinade' : 2 ^ (52 + t) ≤ q * 2 ^ e ∨ t = -1074 := by
    refine hbinade.imp_left fun h => ?_
    rw [hw]
    exact (hunits 52).trans_le (mul_le_mul_of_nonneg_right h hunit.le)
  have hbelow' : q * 2 ^ e < 2 ^ (53 + t) :=
    hw.trans_lt ((mul_lt_mul_of_pos_right hbelow hunit).trans_eq (hunits 53).symm)
  obtain ⟨htarget, hle⟩ := targetExponent_of_window hlow hhigh hK he ht hbinade' hbelow'
  refine roundWithAccuracy_of_target hem htarget hle ?_ hlast hpos s
  rwa [hw, mul_div_assoc, div_self hunit.ne', mul_one]

/-- **Rounding gives the nearest double.** -/
theorem roundWithAccuracy_eq {m M : Nat} {e K E : Int} {acc : Accuracy} {q : ℚ}
    (hem : Represents (.ofMantissaAndAccuracy m acc) q) (hK : 2 ^ K ≤ q * 2 ^ e) (he : e ≤ max (K - 52) (-1074))
    (hM : Canonical M E) (hround : RoundsTo (q * 2 ^ e) M E) (s : Sign) :
    roundWithAccuracy Format.binary64 s m e acc = .finite s M E hM.pos := by
  obtain ⟨w, hw⟩ : ∃ w : ℚ, q * 2 ^ e = w * 2 ^ E :=
    ⟨q * 2 ^ e / 2 ^ E, (div_mul_cancel₀ _ (zpow_pos (by norm_num) E).ne').symm⟩
  rw [hw] at hround
  by_cases hbinade : 2 ^ 52 ≤ w ∨ E = -1074
  · have hbelow : w < 2 ^ 53 := by
      have hM' : (M : ℚ) + 1 ≤ 2 ^ 53 := by exact_mod_cast hM.lt
      have hle := (lowerEnd_lt M E).le
      rcases roundsTo_iff.mp hround with ⟨-, h⟩ | ⟨-, h | h⟩ <;> linarith
    exact roundWithAccuracy_of_binade hem hw hK he hM.least hbinade hbelow (nearest_of_roundsTo hround hbinade)
      (shiftToTargetExponent_same (targetExponent_of_canonical hM)) hM.pos s
  · push Not at hbinade
    obtain ⟨rfl, hleast, hnearest⟩ := nearest_of_narrow hM hround hbinade.1 hbinade.2
    have hw' : q * 2 ^ e = 2 * w * 2 ^ (E - 1) := by
      rw [hw, zpow_sub_one₀ (by norm_num)]
      ring
    have habove : (2 : ℚ) ^ 52 ≤ 2 * w := by
      rcases hnearest with ⟨h, -⟩ | ⟨-, h | h⟩ <;> push_cast at h <;> linarith
    have hlast : shiftToTargetExponent Format.binary64 (2 ^ 53) (E - 1) .exact = (⟨2 ^ 52, false, false⟩, E) := by
      have htarget : Format.binary64.targetExponent (totalExponent (2 ^ 53) (E - 1)) = E := by
        rw [targetExponent_eq, totalExponent, Nat.log2_two_pow]
        omega
      have hshift : (E - (E - 1)).toNat = 1 := by omega
      unfold shiftToTargetExponent shiftToExponent
      rw [htarget]
      dsimp only
      rw [hshift, Nat.cast_one, sub_add_cancel]
      rfl
    exact roundWithAccuracy_of_binade hem hw' hK he (by omega) (.inl habove) (by linarith) hnearest hlast hM.pos s

/-- The binade of a quotient. -/
theorem zpow_le_quotient {m₁ m₂ : Nat} (h₁ : 0 < m₁) (h₂ : 0 < m₂) (e₁ e₂ : Int) :
    (2 : ℚ) ^ (totalExponent m₁ e₁ - totalExponent m₂ e₂ - 1) ≤ m₁ * 2 ^ e₁ / (m₂ * 2 ^ e₂) := by
  have hnum : (2 : ℚ) ^ (m₁.log2 + e₁) ≤ m₁ * 2 ^ e₁ :=
    (log2_bounds h₁.ne' le_rfl (by linarith) e₁).1
  have hden : (m₂ : ℚ) * 2 ^ e₂ < 2 ^ (m₂.log2 + 1 + e₂) :=
    (log2_bounds h₂.ne' le_rfl (by linarith) e₂).2
  have hpos : (0 : ℚ) < m₂ * 2 ^ e₂ := by positivity
  rw [le_div_iff₀ hpos]
  calc (2 : ℚ) ^ (totalExponent m₁ e₁ - totalExponent m₂ e₂ - 1) * (m₂ * 2 ^ e₂)
      ≤ 2 ^ (totalExponent m₁ e₁ - totalExponent m₂ e₂ - 1) * 2 ^ (m₂.log2 + 1 + e₂) := by gcongr
    _ = 2 ^ (m₁.log2 + e₁) := by
        rw [← zpow_add₀ (by norm_num), totalExponent, totalExponent]
        congr 1
        ring
    _ ≤ m₁ * 2 ^ e₁ := hnum

/-- **Division gives the double nearest to the quotient.** -/
theorem div_eq {m₁ m₂ M : Nat} {e₁ e₂ E : Int} (h₁ : 0 < m₁) (h₂ : 0 < m₂) (hM : Canonical M E)
    (hround : RoundsTo (m₁ * 2 ^ e₁ / (m₂ * 2 ^ e₂)) M E) (s₁ s₂ : Sign) :
    div Format.binary64 (.finite s₁ m₁ e₁ h₁) (.finite s₂ m₂ e₂ h₂) = .finite (s₁ / s₂) M E hM.pos := by
  have hK := zpow_le_quotient h₁ h₂ e₁ e₂
  unfold div divCore
  dsimp only
  rw [targetExponent_eq]
  generalize he : min (e₁ - e₂) (max (totalExponent m₁ e₁ - totalExponent m₂ e₂ - 53) (-1074)) = e
  obtain ⟨k, hk⟩ : ∃ k : Nat, e₁ - e₂ - e = k := ⟨(e₁ - e₂ - e).toNat, by omega⟩
  have hvalue : ((m₁ * 2 ^ k : Nat) : ℚ) / m₂ * 2 ^ e = m₁ * 2 ^ e₁ / (m₂ * 2 ^ e₂) := by
    have hpow : (2 : ℚ) ^ e₁ = 2 ^ k * 2 ^ e * 2 ^ e₂ := by
      rw [← zpow_natCast, ← hk, ← zpow_add₀ (by norm_num), ← zpow_add₀ (by norm_num)]
      congr 1
      ring
    rw [hpow]
    push_cast
    field_simp
  rw [← hvalue] at hK hround
  rw [hk, Int.toNat_natCast, Nat.shiftLeft_eq]
  exact roundWithAccuracy_eq (represents_div _ h₂) hK (by omega) hM hround _

theorem mul_eq {m₁ m₂ M : Nat} {e₁ e₂ K E : Int} (h₁ : 0 < m₁) (h₂ : 0 < m₂)
    (hK : 2 ^ K ≤ ((m₁ * m₂ : Nat) : ℚ) * 2 ^ (e₁ + e₂)) (he : e₁ + e₂ ≤ max (K - 52) (-1074)) (hM : Canonical M E)
    (hround : RoundsTo (((m₁ * m₂ : Nat) : ℚ) * 2 ^ (e₁ + e₂)) M E) (s₁ s₂ : Sign) :
    mul Format.binary64 (.finite s₁ m₁ e₁ h₁) (.finite s₂ m₂ e₂ h₂) = .finite (s₁ * s₂) M E hM.pos :=
  roundWithAccuracy_eq (represents_exact _) hK he hM hround _

/-! ## Reading decimal digits -/

def HasValue (x : Float.Model) (v : ℚ) : Prop :=
  ∃ (m : Nat) (e : Int) (hm : 0 < m), x.unpack = .finite .positive m e hm ∧ (m : ℚ) * 2 ^ e = v

/-- A double is nearest to itself. -/
theorem roundsTo_self {m : Nat} (e : Int) : RoundsTo (m * 2 ^ e) m e :=
  roundsTo_iff.mpr (.inl ⟨lowerEnd_lt m e, by linarith⟩)

theorem canonical_shifted {n k : Nat} (hpos : 0 < n) (hk : n.log2 + k = 52) : Canonical (n * 2 ^ k) (-k) := by
  have hlow : 2 ^ n.log2 * 2 ^ k ≤ n * 2 ^ k := Nat.mul_le_mul_right _ (Nat.log2_self_le hpos.ne')
  have hhigh : n * 2 ^ k < 2 ^ (n.log2 + 1) * 2 ^ k :=
    Nat.mul_lt_mul_of_pos_right Nat.lt_log2_self (Nat.two_pow_pos k)
  rw [← pow_add, hk] at hlow
  rw [← pow_add, Nat.add_right_comm, hk] at hhigh
  exact ⟨by positivity, hhigh, by omega, .inl hlow⟩

theorem shifted_value (n k : Nat) : ((n * 2 ^ k : Nat) : ℚ) * 2 ^ (-(k : Int)) = n := by
  push_cast
  rw [zpow_neg, zpow_natCast, mul_assoc, mul_inv_cancel₀ (by positivity), mul_one]

/-- A whole number is shifted until its mantissa is full. -/
theorem ofNat_eq {n k : Nat} (hpos : 0 < n) (hk : n.log2 + k = 52) :
    UnpackedFloat.ofNat Format.binary64 n = .finite .positive (n * 2 ^ k) (-k) (canonical_shifted hpos hk).pos := by
  have hcompare : compare (n : Int) 0 = .gt := compare_gt_iff_gt.mpr (by omega)
  have htarget : Format.binary64.targetExponent (totalExponent n 0) = -(k : Int) := by
    rw [targetExponent_eq, totalExponent]
    omega
  have hdecrease : decreaseExponent n 0 (-(k : Int)) = (n * 2 ^ k, -(k : Int)) := by
    unfold decreaseExponent
    rw [zero_sub, neg_neg, Int.toNat_natCast]
    dsimp only
    rw [Nat.shiftLeft_eq, zero_sub]
  have hbinade : (2 : ℚ) ^ (n.log2 : Int) ≤ n := by exact_mod_cast Nat.log2_self_le hpos.ne'
  rw [← shifted_value n k] at hbinade
  rw [UnpackedFloat.ofNat, UnpackedFloat.ofInt, UnpackedFloat.normalize, hcompare]
  dsimp only
  rw [Int.toNat_natCast, UnpackedFloat.round, htarget, hdecrease]
  dsimp only
  exact roundWithAccuracy_eq (represents_exact _) hbinade (by omega) (canonical_shifted hpos hk) (roundsTo_self _) _

/-- Whole numbers below `2 ^ 53` are doubles. -/
theorem hasValue_ofNat {n : Nat} (hpos : 0 < n) (h : n < 2 ^ 53) : HasValue (Float.Model.ofNat n) n := by
  have hlog : n.log2 < 53 := (Nat.log2_lt hpos.ne').mpr h
  obtain ⟨k, hk⟩ : ∃ k, n.log2 + k = 52 := ⟨52 - n.log2, by omega⟩
  have hcanonical := canonical_shifted hpos hk
  refine ⟨n * 2 ^ k, -k, hcanonical.pos, ?_, shifted_value n k⟩
  obtain ⟨m, hm⟩ := Nat.exists_eq_add_of_le (hcanonical.normal.resolve_right (by omega))
  have hlt := hcanonical.lt
  have hexponent : -(k : Int) = ((1075 - k : Nat) : Int) - 1075 := by omega
  have hpacked : UnpackedFloat.finite .positive (n * 2 ^ k) (-k) hcanonical.pos =
      .finite .positive (2 ^ 52 + m) ((1075 - k : Nat) - 1075) (by positivity) := finite_congr rfl hm hexponent _ _
  have hunpack := @unpack_pack_normal .positive m (1075 - k) (by positivity) (by omega) (by omega) (by omega)
  rw [← hpacked] at hunpack
  rw [Float.Model.ofNat, ofNat_eq hpos hk]
  exact hunpack

/-- The powers of ten that are doubles. -/
theorem hasValue_powerOfTen {k : Nat} (h : k < Float.exactlyRepresentablePowersOfTen.size) :
    HasValue Float.exactlyRepresentablePowersOfTen[k].toModel (10 ^ k) := by
  have hk : k < 23 := h
  interval_cases k
  all_goals
    refine ⟨_, _, _, unpack_ofBits (by decide) (by decide), ?_⟩
    simp only [UInt64.reduceToNat]
    norm_num

/-- Reading digits by the general way. -/
theorem unpacked_ofScientific_eq {n k M : Nat} {E : Int} (hn : 0 < n) (hk : k ≤ 2048) (hM : Canonical M E)
    (hround : RoundsTo (n / 10 ^ k) M E) :
    UnpackedFloat.ofScientific Format.binary64 n (Int.negOfNat k) = .finite .positive M E hM.pos := by
  have hbits : (2 : Int) ^ Format.binary64.exponentBits = 2048 := by norm_num
  have he : Int.negOfNat k = -k := Int.negOfNat_eq
  rw [UnpackedFloat.ofScientific, dif_neg hn.ne', if_neg (by rw [he, hbits]; omega), if_neg (by rw [he, hbits]; omega)]
  by_cases hzero : k = 0
  · subst hzero
    have hwidth : Format.binary64.mantissaBits = 53 := rfl
    have hvalue : ((n <<< Format.binary64.mantissaBits * 10 ^ (Int.negOfNat 0).toNat : Nat) : ℚ) *
        2 ^ (-(Format.binary64.mantissaBits : Int) + 0) = n := by
      have htens : (Int.negOfNat 0).toNat = 0 := rfl
      rw [hwidth, htens, Nat.shiftLeft_eq, add_zero, zpow_neg, zpow_natCast, pow_zero, mul_one, Nat.cast_mul,
        Nat.cast_pow, Nat.cast_ofNat, mul_assoc, mul_inv_cancel₀ (by positivity), mul_one]
    have hbinade : (2 : ℚ) ^ (n.log2 : Int) ≤ n := by exact_mod_cast Nat.log2_self_le hn.ne'
    rw [pow_zero, div_one] at hround
    rw [← hvalue] at hbinade hround
    rw [if_pos (by decide)]
    exact mul_eq _ _ hbinade (by rw [hwidth]; omega) hM hround .positive .positive
  · rw [if_neg (by omega)]
    have hround' : RoundsTo ((n : ℚ) * 2 ^ (0 : Int) / ((10 ^ (-Int.negOfNat k).toNat : Nat) * 2 ^ (0 : Int))) M E := by
      rw [he, neg_neg, Int.toNat_natCast]
      push_cast
      simpa using hround
    exact div_eq hn (by positivity) hM hround' .positive .positive

/-- **Digits are read as the double nearest to the number that they spell.** -/
theorem ofScientific_eq {n k M : Nat} {E : Int} (hn : 0 < n) (hk : k ≤ 2048) (hM : Canonical M E)
    (hround : RoundsTo (n / 10 ^ k) M E) :
    Float.ofScientific n true k = .ofModel (.pack (.finite .positive M E hM.pos)) := by
  by_cases hfast : n < 2 ^ 53 ∧ k ≤ 22
  · obtain ⟨m₁, e₁, h₁, hnum, hvalue₁⟩ := hasValue_ofNat hn hfast.1
    have hsize : k < Float.exactlyRepresentablePowersOfTen.size := Nat.lt_succ_of_le hfast.2
    obtain ⟨m₂, e₂, h₂, hden, hvalue₂⟩ := hasValue_powerOfTen hsize
    have hround' : RoundsTo (m₁ * 2 ^ e₁ / (m₂ * 2 ^ e₂)) M E := by rwa [hvalue₁, hvalue₂]
    have hconvert : n.toUInt64.toFloat.toModel = Float.Model.ofNat n := by
      have htoNat : n.toUInt64.toNat = n := UInt64.toNat_ofNat_of_lt' (by simp only [UInt64.size]; omega)
      show Float.Model.ofNat n.toUInt64.toNat = Float.Model.ofNat n
      rw [htoNat]
    rw [Float.ofScientific, dif_pos hfast]
    show Float.ofModel (.pack (div Format.binary64 n.toUInt64.toFloat.toModel.unpack
      Float.exactlyRepresentablePowersOfTen[k].toModel.unpack)) = _
    rw [hconvert, hnum, hden, div_eq h₁ h₂ hM hround']
    rfl
  · rw [Float.ofScientific, dif_neg hfast]
    show Float.ofModel (.pack (UnpackedFloat.ofScientific Format.binary64 n (Int.negOfNat k))) = _
    rw [unpacked_ofScientific_eq hn hk hM hround]

end Lox
