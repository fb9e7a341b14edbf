import Mathlib.Algebra.Group.Nat.Defs
import Mathlib.Tactic.Tauto
import Lox.Number

/-!
# The bits of a double

* `pack_finite_subnormal`, `pack_finite_normal` : the bits of a finite number, by the width of its mantissa;
* `unpack_normal`, `unpack_subnormal` : the number that the bits stand for;
* `Double.ofFloat_toFloat` : a double is read back from its bits, if they stand for a number.
-/

namespace Lox

open Float.Model (Format UnpackedFloat)
open Float.Model.UnpackedFloat

/-- A word is the sign, the exponent and the mantissa it is split into. -/
theorem packComponents_fields (b : BitVec Format.binary64.numBits) :
    packComponents Format.binary64 (.ofBitVec (unpackSign b)) (unpackExponent b) (unpackMantissa b) = b := by
  have hsign : ∀ s : BitVec 1, (Sign.ofBitVec s).toBitVec = s := by decide
  rw [packComponents, hsign]
  apply BitVec.eq_of_getLsbD_eq
  intro i hi
  unfold unpackSign unpackExponent unpackMantissa
  simp only [BitVec.getLsbD_append, BitVec.getLsbD_cast, BitVec.getLsbD_extractLsb]
  by_cases hm : i < 52
  · simp [hm]
  by_cases he : i < 63
  · simp [hm, show i - 52 < 11 by omega, show 52 + (i - 52) = i by omega]
  · have : i = 63 := by simp at hi; omega
    subst this
    rfl

theorem pack_finite_subnormal (s : Sign) (m : Nat) (hpos : 0 < m) (h : m < 2 ^ 52) :
    pack Format.binary64 (.finite s m (-1074) hpos) =
      packComponents Format.binary64 s 0 (BitVec.ofNat 52 m) := by
  have hlog : m.log2 < 52 := (Nat.log2_lt (by omega)).2 h
  have hwidth : m.log2 + 1 ≠ Format.binary64.mantissaBits := by
    have : Format.binary64.mantissaBits = 53 := by decide
    omega
  unfold pack
  rw [if_neg (by decide), if_neg hwidth]
  rfl

theorem pack_finite_normal (s : Sign) (m e : Nat) (hpos : 0 < 2 ^ 52 + m) (hm : m < 2 ^ 52) (he : e < 2047) :
    pack Format.binary64 (.finite s (2 ^ 52 + m) ((e : Int) - 1075) hpos) =
      packComponents Format.binary64 s (BitVec.ofNat 11 e) (BitVec.ofNat 52 m) := by
  have hlog : (2 ^ 52 + m).log2 = 52 := (Nat.log2_eq_iff (by omega)).2 (by omega)
  have hexp : ((e : Int) - 1075 + (Format.binary64.exponentBias : Nat) +
      (Format.binary64.mantissaBitsWithoutImplicit : Nat)).toNat = e := by
    have : Format.binary64.exponentBias = 1023 := by decide
    simp only [this]
    omega
  have hbits : BitVec.ofNat 52 (2 ^ 52 + m) = BitVec.ofNat 52 m := by
    apply BitVec.eq_of_toNat_eq
    simp
  unfold pack
  rw [hexp, hlog, if_neg (by simp; omega), if_pos (by decide)]
  exact congrArg (packComponents Format.binary64 s (BitVec.ofNat 11 e)) hbits

theorem unpackSign_packComponents (s : Sign) (e : BitVec 11) (m : BitVec 52) :
    unpackSign (packComponents Format.binary64 s e m) = s.toBitVec := by
  apply BitVec.eq_of_getLsbD_eq
  intro i hi
  obtain rfl : i = 0 := by omega
  unfold unpackSign packComponents
  simp only [BitVec.getLsbD_append, BitVec.getLsbD_cast, BitVec.getLsbD_extractLsb]
  simp

theorem finite_congr {s s' : Sign} {m m' : Nat} {e e' : Int} (hs : s = s') (hm : m = m') (he : e = e') (hpos : 0 < m)
    (hpos' : 0 < m') : UnpackedFloat.finite s m e hpos = .finite s' m' e' hpos' := by
  subst hs hm he
  rfl

/-- A word whose exponent bits are neither all zero nor all one is a normal number. -/
theorem unpack_normal {b : BitVec Format.binary64.numBits} {s : Sign} {m e : Nat} (hpos : 0 < 2 ^ 52 + m)
    (hs : unpackSign b = s.toBitVec) (hm : (unpackMantissa b).toNat = m) (he : (unpackExponent b).toNat = e) (he₀ : 0 < e)
    (he₁ : e < 2047) :
    unpack Format.binary64 b = .finite s (2 ^ 52 + m) ((e : Int) - 1075) hpos := by
  have hones : unpackExponent b ≠ -BitVec.ofNat Format.binary64.exponentBits 1 := fun h => by
    have := congrArg BitVec.toNat h
    rw [he] at this
    simp at this
    omega
  have hnone : unpackExponent b ≠ BitVec.ofNat Format.binary64.exponentBits 0 := fun h => by
    have := congrArg BitVec.toNat h
    rw [he] at this
    simp at this
    omega
  have happend : (1#1 ++ unpackMantissa b).toNat = 2 ^ 52 + (unpackMantissa b).toNat := by
    rw [BitVec.toNat_append, ← Nat.shiftLeft_add_eq_or_of_lt (unpackMantissa b).isLt]
    rfl
  have hbias : Format.binary64.exponentBias = 1023 := by decide
  have hsign : Sign.ofBitVec s.toBitVec = s := by cases s <;> rfl
  unfold unpack
  rw [if_neg hones, if_neg hnone]
  refine finite_congr (by rw [hs, hsign]) (by rw [happend, hm]) ?_ _ _
  rw [he, hbias]
  show (e : Int) - (1023 + 52) = e - 1075
  omega

theorem unpack_subnormal {b : BitVec Format.binary64.numBits} {s : Sign} {m : Nat} (hpos : 0 < m)
    (hs : unpackSign b = s.toBitVec) (hm : (unpackMantissa b).toNat = m) (he : (unpackExponent b).toNat = 0) :
    unpack Format.binary64 b = .finite s m (-1074) hpos := by
  have hnone : unpackExponent b = BitVec.ofNat Format.binary64.exponentBits 0 := BitVec.eq_of_toNat_eq he
  have hones : unpackExponent b ≠ -BitVec.ofNat Format.binary64.exponentBits 1 := fun h => by
    have := congrArg BitVec.toNat h
    rw [he] at this
    simp at this
  have hsome : unpackMantissa b ≠ BitVec.ofNat Format.binary64.mantissaBitsWithoutImplicit 0 := fun h => by
    have := congrArg BitVec.toNat h
    rw [hm] at this
    simp at this
    omega
  have hbias : Format.binary64.exponentBias = 1023 := by decide
  have hsign : Sign.ofBitVec s.toBitVec = s := by cases s <;> rfl
  unfold unpack
  rw [if_neg hones, if_pos hnone, dif_neg hsome]
  refine finite_congr (by rw [hs, hsign]) hm ?_ _ _
  rw [he, hbias]
  rfl

theorem unpackMantissa_toNat (b : BitVec Format.binary64.numBits) : (unpackMantissa b).toNat = b.toNat % 2 ^ 52 := by
  unfold unpackMantissa
  rw [BitVec.toNat_cast, BitVec.extractLsb_toNat]
  rfl

theorem unpackExponent_toNat (b : BitVec Format.binary64.numBits) :
    (unpackExponent b).toNat = b.toNat / 2 ^ 52 % 2 ^ 11 := by
  unfold unpackExponent
  rw [BitVec.toNat_cast, BitVec.extractLsb_toNat, Nat.shiftRight_eq_div_pow]
  rfl

theorem unpackSign_toNat (b : BitVec Format.binary64.numBits) : (unpackSign b).toNat = b.toNat / 2 ^ 63 % 2 := by
  unfold unpackSign
  rw [BitVec.toNat_cast, BitVec.extractLsb_toNat, Nat.shiftRight_eq_div_pow]
  rfl

/-- The sign bit is clear. -/
theorem unpackSign_of_lt {b : BitVec Format.binary64.numBits} (h : b.toNat < 2 ^ 63) :
    unpackSign b = Sign.positive.toBitVec := by
  apply BitVec.eq_of_toNat_eq
  rw [unpackSign_toNat, Nat.div_eq_of_lt h]
  rfl

theorem unpackExponent_of_lt {b : BitVec Format.binary64.numBits} (h : b.toNat < 2 ^ 63) :
    (unpackExponent b).toNat = b.toNat / 2 ^ 52 := by
  rw [unpackExponent_toNat]
  omega

theorem unpack_pack_normal {s : Sign} {m e : Nat} (hpos : 0 < 2 ^ 52 + m) (hm : m < 2 ^ 52) (he₀ : 0 < e)
    (he₁ : e < 2047) :
    unpack Format.binary64 (pack Format.binary64 (.finite s (2 ^ 52 + m) ((e : Int) - 1075) hpos)) =
      .finite s (2 ^ 52 + m) ((e : Int) - 1075) hpos := by
  rw [pack_finite_normal s m e hpos hm he₁]
  refine unpack_normal hpos (unpackSign_packComponents _ _ _) ?_ ?_ he₀ he₁
  · rw [unpackMantissa_packComponents, BitVec.toNat_ofNat, Nat.mod_eq_of_lt hm]
  · rw [unpackExponent_packComponents, BitVec.toNat_ofNat]
    exact Nat.mod_eq_of_lt (Nat.lt_trans he₁ (by decide))

theorem pack_unpack {b : BitVec Format.binary64.numBits} (h : Format.binary64.Valid b) :
    pack Format.binary64 (unpack Format.binary64 b) = b := by
  have hb := packComponents_fields b
  have hman : (unpackMantissa b).toNat < 2 ^ 52 := (unpackMantissa b).isLt
  have hexp : (unpackExponent b).toNat < 2 ^ 11 := (unpackExponent b).isLt
  have hsign : unpackSign b = (Sign.ofBitVec (unpackSign b)).toBitVec :=
    (by decide : ∀ s : BitVec 1, s = (Sign.ofBitVec s).toBitVec) _
  by_cases hones : unpackExponent b = -BitVec.ofNat Format.binary64.exponentBits 1
  · unfold unpack
    rw [if_pos hones]
    by_cases hzero : unpackMantissa b = BitVec.ofNat Format.binary64.mantissaBitsWithoutImplicit 0
    · rw [if_pos hzero]
      unfold pack packedInfinity
      rw [← hones]
      rwa [hzero] at hb
    · rw [if_neg hzero]
      exact (h.eq_packedNaN hones hzero).symm
  by_cases hnone : unpackExponent b = BitVec.ofNat Format.binary64.exponentBits 0
  · by_cases hzero : unpackMantissa b = BitVec.ofNat Format.binary64.mantissaBitsWithoutImplicit 0
    · unfold unpack
      rw [if_neg hones, if_pos hnone, dif_pos hzero]
      unfold pack packedZero
      rwa [hnone, hzero] at hb
    · have hpos : 0 < (unpackMantissa b).toNat :=
        Nat.pos_of_ne_zero fun hc => hzero (BitVec.eq_of_toNat_eq hc)
      rw [unpack_subnormal hpos hsign rfl (congrArg BitVec.toNat hnone), pack_finite_subnormal _ _ _ hman]
      rw [hnone] at hb
      simpa using hb
  · have hpos : 0 < (unpackExponent b).toNat := Nat.pos_of_ne_zero fun hc => hnone (BitVec.eq_of_toNat_eq hc)
    have hlt : (unpackExponent b).toNat < 2047 := by
      have hne : (unpackExponent b).toNat ≠ 2047 := fun hc => hones (BitVec.eq_of_toNat_eq hc)
      omega
    rw [unpack_normal (by omega) hsign rfl rfl hpos hlt, pack_finite_normal _ _ _ _ hman hlt]
    simpa using hb

/-- The bits of a positive normal number. -/
theorem unpack_ofBits {a : UInt64} (he₀ : 0 < a.toNat / 2 ^ 52) (he₁ : a.toNat / 2 ^ 52 < 2047) :
    (Float.ofBits a).toModel.unpack =
      .finite .positive (2 ^ 52 + a.toNat % 2 ^ 52) ((a.toNat / 2 ^ 52 : Nat) - 1075) (by omega) := by
  have hlt : a.toNat < 2 ^ 63 := by omega
  have hexp : (@unpackExponent Format.binary64 a.toBitVec).toNat = a.toNat / 2 ^ 52 := unpackExponent_of_lt hlt
  have hsign : @unpackSign Format.binary64 a.toBitVec = Sign.positive.toBitVec := unpackSign_of_lt hlt
  have hvalid : Format.binary64.Valid a.toBitVec := by
    refine ⟨fun h => ?_⟩
    have := congrArg BitVec.toNat h
    rw [hexp] at this
    simp at this
    omega
  have hpack : (Float.ofBits a).toModel.unpack = unpack Format.binary64 a.toBitVec :=
    congrArg (unpack Format.binary64) (pack_unpack hvalid)
  rw [hpack]
  exact unpack_normal _ hsign (unpackMantissa_toNat _) hexp he₀ he₁

section Bits

variable {b : UInt64}

theorem unpackExponent_eq_ones :
    @unpackExponent Format.binary64 b.toBitVec = -BitVec.ofNat Format.binary64.exponentBits 1 ↔
      b.toNat / 2 ^ 52 % 2 ^ 11 = 2047 := by
  rw [← BitVec.toNat_inj, unpackExponent_toNat]
  exact Iff.rfl

theorem unpackMantissa_eq_zero :
    @unpackMantissa Format.binary64 b.toBitVec = BitVec.ofNat Format.binary64.mantissaBitsWithoutImplicit 0 ↔
      b.toNat % 2 ^ 52 = 0 := by
  rw [← BitVec.toNat_inj, unpackMantissa_toNat]
  exact Iff.rfl

/-- Bits that stand for a number are kept. -/
theorem toBits_ofBits (h : b.toNat / 2 ^ 52 % 2 ^ 11 = 2047 → b.toNat % 2 ^ 52 = 0) : (Float.ofBits b).toBits = b := by
  have hvalid : Format.binary64.Valid b.toBitVec := by
    refine ⟨fun hexponent hmantissa => absurd ?_ hmantissa⟩
    exact unpackMantissa_eq_zero.mpr (h (unpackExponent_eq_ones.mp hexponent))
  exact congrArg UInt64.ofBitVec (pack_unpack hvalid)

end Bits

namespace Double

def exponentBits (x : Double) : Nat :=
  x.bits.toNat / 2 ^ 52 % 2 ^ 11

def fractionBits (x : Double) : Nat :=
  x.bits.toNat % 2 ^ 52

variable {x : Double}

theorem fields_eq (x : Double) : x.fields = (decide (2 ^ 63 ≤ x.bits.toNat), x.exponentBits, x.fractionBits) := by
  unfold fields
  refine Prod.ext ?_ rfl
  change decide (0x800 ≤ x.bits.toNat / 2 ^ 52) = decide (2 ^ 63 ≤ x.bits.toNat)
  rw [decide_eq_decide]
  omega

theorem isNaN_eq_false : x.isNaN = false ↔ (x.exponentBits = 2047 → x.fractionBits = 0) := by
  unfold isNaN
  rw [fields_eq]
  dsimp only
  simp only [Bool.and_eq_false_iff, decide_eq_false_iff_not, not_not]
  tauto

/-- A double is read back from the number that it stands for, if it stands for one. -/
theorem ofFloat_toFloat (h : x.isNaN = false) : ofFloat x.toFloat = x :=
  congrArg mk (toBits_ofBits (isNaN_eq_false.mp h))

end Double

end Lox
