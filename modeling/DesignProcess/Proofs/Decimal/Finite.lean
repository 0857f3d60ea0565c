import DesignProcess.Decimal.Layout
import Mathlib

namespace DesignProcess.Decimal

open Float.Model (Format UnpackedFloat)
open Float.Model.UnpackedFloat (Sign)

def exponentBits (b : BitVec 64) : BitVec 11 :=
  @UnpackedFloat.unpackExponent Format.binary64 b

theorem isFinite_unpack_iff (b : BitVec 64) :
    (UnpackedFloat.unpack Format.binary64 b).isFinite = true ↔ exponentBits b ≠ -1#11 := by
  unfold UnpackedFloat.unpack
  dsimp only
  split
  · rename_i h
    have hbits : exponentBits b = -1#11 := h
    split <;> simp only [UnpackedFloat.isFinite, hbits, ne_eq, not_true, Bool.false_eq_true]
  · rename_i h
    have hbits : exponentBits b ≠ -1#11 := h
    split
    · split <;> exact iff_of_true rfl hbits
    · exact iff_of_true rfl hbits

theorem exponentBits_pack {s : Sign} {m : Nat} {e : Int} (hm : 0 < m)
    (h : (e + 1075).toNat < 2047) :
    exponentBits (UnpackedFloat.pack Format.binary64 (.finite s m e hm)) ≠ -1#11 := by
  have hbias : (e + (Format.binary64.exponentBias : Int) +
      (Format.binary64.mantissaBitsWithoutImplicit : Int)).toNat = (e + 1075).toNat := by
    have hsum : (e + (Format.binary64.exponentBias : Int) +
        (Format.binary64.mantissaBitsWithoutImplicit : Int)) = e + 1023 + 52 := rfl
    rw [hsum]
    omega
  unfold UnpackedFloat.pack
  dsimp only
  rw [hbias, if_neg (by omega)]
  unfold exponentBits
  split
  · rw [UnpackedFloat.unpackExponent_packComponents]
    intro hones
    have hmod : (e + 1075).toNat % 2048 = 2047 := congrArg BitVec.toNat hones
    omega
  · rw [UnpackedFloat.unpackExponent_packComponents]
    decide

theorem exponentBits_neg (b : BitVec 64) :
    exponentBits (UnpackedFloat.pack Format.binary64 (UnpackedFloat.unpack Format.binary64 b).neg) =
      -1#11 ↔ exponentBits b = -1#11 := by
  unfold UnpackedFloat.unpack
  dsimp only
  split
  · rename_i h
    have hbits : exponentBits b = -1#11 := h
    split
    · exact iff_of_true UnpackedFloat.unpackExponent_packComponents hbits
    · exact iff_of_true UnpackedFloat.unpackExponent_packComponents hbits
  · rename_i h
    have hbits : exponentBits b ≠ -1#11 := h
    split
    · rename_i hzero
      split
      · refine iff_of_false ?_ hbits
        intro hones
        have hpacked := hones.symm.trans UnpackedFloat.unpackExponent_packComponents
        exact absurd hpacked (by decide)
      · refine iff_of_false ?_ hbits
        apply exponentBits_pack
        rw [hzero]
        decide
    · refine iff_of_false ?_ hbits
      apply exponentBits_pack
      have hlt := (exponentBits b).isLt
      have hne : (exponentBits b).toNat ≠ 2047 := fun heq => hbits (BitVec.eq_of_toNat_eq heq)
      change ((((exponentBits b).toNat : Int) - (1023 + 52)) + 1075).toNat < 2047
      omega

theorem isFinite_neg (x : Float) : (-x).isFinite = true ↔ x.isFinite = true := by
  change (UnpackedFloat.unpack Format.binary64 (UnpackedFloat.pack Format.binary64
    (UnpackedFloat.unpack Format.binary64 x.toModel.toBits.toBitVec).neg)).isFinite = true ↔
    (UnpackedFloat.unpack Format.binary64 x.toModel.toBits.toBitVec).isFinite = true
  rw [isFinite_unpack_iff, isFinite_unpack_iff]
  exact not_congr (exponentBits_neg _)

theorem not_isNaN_of_isFinite {x : Float} (h : x.isFinite = true) : x.isNaN = false := by
  change x.toModel.unpack.isFinite = true at h
  change x.toModel.unpack.isNaN = false
  cases hf : x.toModel.unpack with
  | notANumber =>
    rw [hf] at h
    cases h
  | infinity | zero | finite => rfl

theorem not_isInf_of_isFinite {x : Float} (h : x.isFinite = true) : x.isInf = false := by
  change x.toModel.unpack.isFinite = true at h
  change x.toModel.unpack.isInf = false
  cases hf : x.toModel.unpack with
  | infinity =>
    rw [hf] at h
    cases h
  | notANumber | zero | finite => rfl

theorem beq_self_of_isFinite {x : Float} (h : x.isFinite = true) : (x == x) = true := by
  apply Float.beq_self_iff.mpr
  intro hnan
  have hnumber := not_isNaN_of_isFinite h
  rw [Float.isNaN_eq_decide_eq_nan, hnan] at hnumber
  cases hnumber

end DesignProcess.Decimal
