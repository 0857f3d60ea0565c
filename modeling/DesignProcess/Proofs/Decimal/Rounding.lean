import DesignProcess.Proofs.Decimal.Value

namespace DesignProcess.Decimal

open Float.Model (Format UnpackedFloat totalExponent)
open Float.Model.UnpackedFloat (Sign ExtendedMantissa)

theorem shiftRight_succ (em : ExtendedMantissa) (k : ℕ) :
    em >>> (k + 1) = (em >>> k).shiftRightOne := rfl

/-- The round bit is the last one that was shifted out, and the sticky bit stands for the rest. -/
theorem shiftRight_exact (m k : ℕ) :
    (⟨m, false, false⟩ : ExtendedMantissa) >>> (k + 1) =
      ⟨m / 2 ^ (k + 1), m / 2 ^ k % 2 != 0, m % 2 ^ k != 0⟩ := by
  induction k with
  | zero => simp [HShiftRight.hShiftRight, Nat.repeat, ExtendedMantissa.shiftRightOne, Nat.mod_one]
  | succ k ih =>
    have hmod : m % 2 ^ (k + 1) = m % 2 ^ k + 2 ^ k * (m / 2 ^ k % 2) := Nat.mod_pow_succ
    have hpow : 2 ^ k ≠ 0 := by positivity
    rw [shiftRight_succ, ih, ExtendedMantissa.shiftRightOne]
    congr 1
    · rw [Nat.div_div_eq_div_mul, ← pow_succ]
    · rw [hmod, Bool.eq_iff_iff]
      simp only [Bool.or_eq_true, bne_iff_ne, ne_eq, Nat.add_eq_zero_iff, Nat.mul_eq_zero, hpow,
        false_or]
      tauto

theorem roundedMantissa_shiftRight (m k : ℕ) :
    |(((⟨m, false, false⟩ : ExtendedMantissa) >>> k).roundedMantissa : ℤ) * 2 ^ k - m| * 2 ≤
      2 ^ k := by
  cases k with
  | zero =>
    change |(m : ℤ) * 1 - m| * 2 ≤ 1
    simp
  | succ k =>
    have hmod : m % 2 ^ (k + 1) = m % 2 ^ k + 2 ^ k * (m / 2 ^ k % 2) := Nat.mod_pow_succ
    have hdiv := Nat.div_add_mod m (2 ^ (k + 1))
    have hlt : m % 2 ^ k < 2 ^ k := Nat.mod_lt _ (by positivity)
    have hbit := Nat.mod_two_eq_zero_or_one (m / 2 ^ k)
    have hhalf : (2 : ℤ) ^ (k + 1) = 2 ^ k * 2 := pow_succ 2 k
    have hm : (m : ℤ) = (m / 2 ^ (k + 1) : ℕ) * (2 ^ k * 2) + 2 ^ k * (m / 2 ^ k % 2 : ℕ) +
        (m % 2 ^ k : ℕ) := by
      rw [← hhalf]
      conv_lhs => rw [← hdiv, hmod]
      push_cast
      ring
    rw [shiftRight_exact, hhalf]
    generalize m / 2 ^ (k + 1) = q at *
    generalize m / 2 ^ k % 2 = b at *
    generalize m % 2 ^ k = r at *
    have hlt : (r : ℤ) < 2 ^ k := by exact_mod_cast hlt
    generalize (2 : ℤ) ^ k = p at *
    apply mul_le_mul_of_nonneg_right _ (by decide : (0 : ℤ) ≤ 2)
    rcases hbit with rfl | rfl
    · have hround : (⟨q, 0 != 0, r != 0⟩ : ExtendedMantissa).roundedMantissa = q := by
        cases r != 0 <;> rfl
      rw [hround, hm, abs_le]
      constructor <;> push_cast <;> linarith
    · by_cases hr : r = 0
      · have hround : (⟨q, 1 != 0, r != 0⟩ : ExtendedMantissa).roundedMantissa = q + q % 2 := by
          rw [hr]
          rfl
        rw [hround, hm, hr, abs_le]
        have heven : ((q % 2 : ℕ) : ℤ) = 0 ∨ ((q % 2 : ℕ) : ℤ) = 1 := by omega
        constructor <;> rcases heven with h | h <;> rw [Nat.cast_add, h] <;> push_cast <;> linarith
      · have hround : (⟨q, 1 != 0, r != 0⟩ : ExtendedMantissa).roundedMantissa = q + 1 := by
          rw [bne_iff_ne.mpr hr]
          rfl
        rw [hround, hm, abs_le]
        constructor <;> push_cast <;> linarith

theorem shiftToTargetExponent_exact {m k : ℕ} {e : ℤ} (hlog : m.log2 = 52 + k)
    (hlow : -1074 ≤ e + k) :
    UnpackedFloat.shiftToTargetExponent Format.binary64 m e .exact =
      ((⟨m, false, false⟩ : ExtendedMantissa) >>> k, e + k) := by
  have htarget : Format.binary64.targetExponent (totalExponent m e) = e + k := by
    change max (((m.log2 : ℤ) + 1 + e) - 53) (-1074) = e + k
    rw [hlog]
    push_cast
    omega
  unfold UnpackedFloat.shiftToTargetExponent UnpackedFloat.shiftToExponent
  dsimp only
  have hshift : (e + k - e).toNat = k := by omega
  rw [htarget, hshift]
  rfl

structure IsNormal (m : ℕ) (e : ℤ) : Prop where
  full : 2 ^ 52 ≤ m
  lt : m < 2 ^ 53
  low : -1074 ≤ e
  high : e ≤ 971

theorem IsNormal.log2 {m : ℕ} {e : ℤ} (h : IsNormal m e) : m.log2 = 52 :=
  (Nat.log2_eq_iff (by have := h.full; omega)).mpr ⟨h.full, h.lt⟩

theorem rounded_mem_binade {m k r : ℕ} (hlog : m.log2 = 52 + k)
    (h : |(r : ℤ) * 2 ^ k - m| * 2 ≤ 2 ^ k) : 2 ^ 52 ≤ r ∧ r ≤ 2 ^ 53 := by
  have hm : m ≠ 0 := by
    rintro rfl
    rw [Nat.log2_zero] at hlog
    omega
  obtain ⟨hfull, hlt⟩ := (Nat.log2_eq_iff hm).mp hlog
  rw [pow_add] at hfull
  rw [show 52 + k + 1 = 53 + k by omega, pow_add] at hlt
  have hfull : (2 : ℤ) ^ 52 * 2 ^ k ≤ m := by exact_mod_cast hfull
  have hlt : (m : ℤ) < 2 ^ 53 * 2 ^ k := by exact_mod_cast hlt
  have hpow : (0 : ℤ) < 2 ^ k := by positivity
  have hle := le_abs_self ((r : ℤ) * 2 ^ k - m)
  have hge := neg_abs_le ((r : ℤ) * 2 ^ k - m)
  constructor
  · by_contra hcon
    have hr : (r : ℤ) + 1 ≤ 2 ^ 52 := by omega
    have := mul_le_mul_of_nonneg_right hr hpow.le
    linarith
  · by_contra hcon
    have hr : (2 : ℤ) ^ 53 + 1 ≤ r := by omega
    have := mul_le_mul_of_nonneg_right hr hpow.le
    linarith

theorem IsNormal.exponent_lt {m : ℕ} {e t : ℤ} (h : IsNormal m e)
    (hlt : (m : ℚ) * 2 ^ e < 2 ^ (52 + t)) : e < t := by
  have hfull : (2 : ℚ) ^ (52 : ℤ) ≤ m := by exact_mod_cast h.full
  have hle : (2 : ℚ) ^ (52 + e) ≤ m * 2 ^ e := by
    rw [zpow_add₀ (by norm_num)]
    exact mul_le_mul_of_nonneg_right hfull (by positivity)
  have := (zpow_lt_zpow_iff_right₀ (by norm_num : (1 : ℚ) < 2)).mp (hle.trans_lt hlt)
  omega

/-- When the rounding carries over, one bit is dropped again, and that bit is zero. -/
theorem roundWithAccuracy_exact {s : Sign} {m k : ℕ} {e : ℤ} (hlog : m.log2 = 52 + k)
    (hlow : -1074 ≤ e + k) (hhigh : e + k < 971) :
    ∃ (m' : ℕ) (e' : ℤ) (hm' : 0 < m') (r : ℕ),
      UnpackedFloat.roundWithAccuracy Format.binary64 s m e .exact = .finite s m' e' hm' ∧
        IsNormal m' e' ∧ (m' : ℚ) * 2 ^ e' = r * 2 ^ (e + k) ∧
        |(r : ℤ) * 2 ^ k - m| * 2 ≤ 2 ^ k := by
  have hhalf := roundedMantissa_shiftRight m k
  have hbinade := rounded_mem_binade hlog hhalf
  unfold UnpackedFloat.roundWithAccuracy
  rw [shiftToTargetExponent_exact hlog hlow]
  dsimp only
  generalize ((⟨m, false, false⟩ : ExtendedMantissa) >>> k).roundedMantissa = r at *
  rcases hbinade.2.lt_or_eq with hlt | rfl
  · have hkept : r.log2 = 52 + 0 := (Nat.log2_eq_iff (by omega)).mpr ⟨hbinade.1, hlt⟩
    rw [shiftToTargetExponent_exact hkept (by simpa using hlow), Nat.cast_zero, add_zero]
    have hpos : r ≠ 0 := by omega
    exact ⟨r, e + k, by omega, r, dif_neg hpos, ⟨hbinade.1, hlt, hlow, hhigh.le⟩, rfl, hhalf⟩
  · have hcarry : (2 ^ 53 : ℕ).log2 = 52 + 1 := Nat.log2_two_pow
    rw [shiftToTargetExponent_exact hcarry (by push_cast; omega)]
    refine ⟨2 ^ 52, e + k + 1, by decide, 2 ^ 53, rfl,
      ⟨le_rfl, by decide, by omega, by omega⟩, ?_, hhalf⟩
    rw [zpow_add₀ (by norm_num)]
    push_cast
    ring

theorem OnGrid.multiple_or_lt {q : ℚ} (h : OnGrid q) (t : ℤ) :
    (∃ c : ℤ, q = c * 2 ^ t) ∨ q < 2 ^ (52 + t) := by
  obtain ⟨a, e, ha, -, rfl⟩ := h
  -- Above the last place kept the number is a multiple of it, and below it the number is too small.
  rcases le_or_gt t e with hle | hlt
  · left
    obtain ⟨d, rfl⟩ := Int.le.dest hle
    refine ⟨a * 2 ^ d, ?_⟩
    rw [zpow_add₀ (by norm_num), zpow_natCast]
    push_cast
    ring
  · right
    have ha : (a : ℚ) < 2 ^ 53 := by exact_mod_cast (le_abs_self a).trans_lt ha
    calc (a : ℚ) * 2 ^ e
        < 2 ^ 53 * 2 ^ e := mul_lt_mul_of_pos_right ha (by positivity)
      _ = 2 ^ (53 + e) := by rw [zpow_add₀ (by norm_num)]; norm_num
      _ ≤ 2 ^ (52 + t) := zpow_le_zpow_right₀ (by norm_num) (by omega)

def Closest (y q : ℚ) : Prop := ∀ g, OnGrid g → |y - q| ≤ |g - q|

theorem Closest.neg {y q : ℚ} (h : Closest y q) : Closest (-y) (-q) := by
  intro g hg
  have := h (-g) hg.neg
  rwa [← abs_neg, neg_sub', neg_neg, neg_neg, ← abs_neg (g - -q), neg_sub', neg_neg]

theorem Closest.eq_of_onGrid {y q : ℚ} (h : Closest y q) (hq : OnGrid q) : y = q := by
  have := h q hq
  rw [sub_self, abs_zero] at this
  exact sub_eq_zero.mp (abs_nonpos_iff.mp this)

theorem closest_of_half_place {q : ℚ} {r : ℕ} {t : ℤ} (hq : 2 ^ (52 + t) ≤ q)
    (h : |r * 2 ^ t - q| * 2 ≤ 2 ^ t) : Closest (r * 2 ^ t) q := by
  have hpos : (0 : ℚ) < 2 ^ t := by positivity
  have hmultiple (c : ℤ) : |r * 2 ^ t - q| ≤ |c * 2 ^ t - q| := by
    by_cases hc : c = r
    · rw [hc, Int.cast_natCast]
    · have hstep : (1 : ℚ) ≤ |(c : ℚ) - r| := by
        exact_mod_cast Int.one_le_abs (sub_ne_zero.mpr hc)
      have hplace : 2 ^ t ≤ |(c * 2 ^ t : ℚ) - r * 2 ^ t| := by
        rw [← sub_mul, abs_mul, abs_of_pos hpos]
        exact le_mul_of_one_le_left hpos.le hstep
      have htriangle := abs_sub_le ((c : ℚ) * 2 ^ t) q (r * 2 ^ t)
      rw [abs_sub_comm q] at htriangle
      linarith
  intro g hg
  rcases hg.multiple_or_lt t with ⟨c, rfl⟩ | hlt
  · exact hmultiple c
  · have hleast := hmultiple (2 ^ 52)
    have hpow : ((2 ^ 52 : ℤ) : ℚ) * 2 ^ t = 2 ^ (52 + t) := by
      rw [zpow_add₀ (by norm_num)]
      norm_num
    rw [hpow, abs_of_nonpos (sub_nonpos.mpr hq)] at hleast
    rw [abs_of_neg (by linarith : g - q < 0)]
    linarith

def Rounds (s : Sign) (q : ℚ) (u : UnpackedFloat) : Prop :=
  ∃ (m : ℕ) (e : ℤ) (hm : 0 < m), u = .finite s m e hm ∧ IsNormal m e ∧ Closest (m * 2 ^ e) q

theorem rounds_roundWithAccuracy {s : Sign} {m k : ℕ} {e : ℤ} (hlog : m.log2 = 52 + k)
    (hlow : -1074 ≤ e + k) (hhigh : e + k < 971) :
    Rounds s (m * 2 ^ e) (UnpackedFloat.roundWithAccuracy Format.binary64 s m e .exact) := by
  obtain ⟨m', e', hm', r, hround, hnormal, hvalue, hhalf⟩ :=
    roundWithAccuracy_exact (s := s) hlog hlow hhigh
  refine ⟨m', e', hm', hround, hnormal, ?_⟩
  rw [hvalue]
  have hm : m ≠ 0 := by
    rintro rfl
    rw [Nat.log2_zero] at hlog
    omega
  have hpos : (0 : ℚ) < 2 ^ e := by positivity
  have hplace : (2 : ℚ) ^ (e + k) = 2 ^ k * 2 ^ e := by
    rw [zpow_add₀ (by norm_num), zpow_natCast, mul_comm]
  apply closest_of_half_place
  · have hfull : (2 : ℚ) ^ (52 + k) ≤ m := by
      rw [← hlog]
      exact_mod_cast Nat.log2_self_le hm
    calc (2 : ℚ) ^ (52 + (e + k))
        = 2 ^ (52 + k) * 2 ^ e := by
          rw [← zpow_natCast, ← zpow_add₀ (by norm_num)]
          congr 1
          push_cast
          ring
      _ ≤ m * 2 ^ e := mul_le_mul_of_nonneg_right hfull hpos.le
  · have hhalf : |(r : ℚ) * 2 ^ k - m| * 2 ≤ 2 ^ k := by exact_mod_cast hhalf
    rw [hplace, ← mul_assoc, ← sub_mul, abs_mul, abs_of_pos hpos, mul_right_comm]
    exact mul_le_mul_of_nonneg_right hhalf hpos.le

theorem unpack_pack_normal {s : Sign} {m : ℕ} {e : ℤ} {hm : 0 < m} (h : IsNormal m e) :
    UnpackedFloat.unpack Format.binary64
      (UnpackedFloat.pack Format.binary64 (.finite s m e hm)) = .finite s m e hm := by
  have hlow := h.low
  have hhigh := h.high
  have hbias : (e + (Format.binary64.exponentBias : Int) +
      (Format.binary64.mantissaBitsWithoutImplicit : Int)).toNat = (e + 1075).toNat := by
    change (e + 1023 + 52).toNat = (e + 1075).toNat
    omega
  unfold UnpackedFloat.pack
  dsimp only
  rw [hbias, if_neg (by omega), if_pos (by rw [h.log2]; rfl)]
  unfold UnpackedFloat.unpack
  simp only [UnpackedFloat.unpackExponent_packComponents,
    UnpackedFloat.unpackMantissa_packComponents, UnpackedFloat.unpackSign_packComponents,
    Sign.ofBitVec_toBitVec]
  have hexponent : (BitVec.ofNat 11 (e + 1075).toNat).toNat = (e + 1075).toNat := by
    rw [BitVec.toNat_ofNat]
    omega
  have hones : BitVec.ofNat 11 (e + 1075).toNat ≠ -1#11 := by
    intro heq
    have : (e + 1075).toNat = 2047 := hexponent.symm.trans (congrArg BitVec.toNat heq)
    omega
  have hzero : BitVec.ofNat 11 (e + 1075).toNat ≠ 0#11 := by
    intro heq
    have : (e + 1075).toNat = 0 := hexponent.symm.trans (congrArg BitVec.toNat heq)
    omega
  have hmantissa : (1#1 ++ BitVec.ofNat 52 m).toNat = m := by
    have hfull := h.full
    have hlt := h.lt
    rw [toNat_leadingOne_append, BitVec.toNat_ofNat]
    omega
  have hshift : ((e + 1075).toNat : ℤ) - (1023 + 52) = e := by omega
  rw [if_neg hones, if_neg hzero]
  congr 1
  rw [hexponent]
  exact hshift

theorem Rounds.unpack_pack {s : Sign} {q : ℚ} {u : UnpackedFloat} (h : Rounds s q u) :
    (Float.Model.pack u).unpack = u := by
  obtain ⟨m, e, hm, rfl, hnormal, -⟩ := h
  exact unpack_pack_normal hnormal

theorem log2_mul_two_pow {m : ℕ} (hm : m ≠ 0) (k : ℕ) : (m * 2 ^ k).log2 = m.log2 + k := by
  obtain ⟨hfull, hlt⟩ := (Nat.log2_eq_iff hm).mp rfl
  apply (Nat.log2_eq_iff (by positivity)).mpr
  rw [pow_add, show m.log2 + k + 1 = m.log2 + 1 + k by omega, pow_add]
  exact ⟨Nat.mul_le_mul_right _ hfull, Nat.mul_lt_mul_of_pos_right hlt (by positivity)⟩

theorem round_small {n : ℕ} (hpos : 0 < n) (hlt : n < 2 ^ 53) :
    UnpackedFloat.ofNat Format.binary64 n =
      UnpackedFloat.roundWithAccuracy Format.binary64 .positive (n * 2 ^ (52 - n.log2))
        (-(52 - n.log2 : ℕ)) .exact := by
  have hlog : n.log2 < 53 := (Nat.log2_lt (by omega)).mpr hlt
  have hcompare : compare (n : ℤ) 0 = .gt := compare_gt_iff_gt.mpr (by exact_mod_cast hpos)
  have htarget : Format.binary64.targetExponent (totalExponent n 0) = -(52 - n.log2 : ℕ) := by
    change max (((n.log2 : ℤ) + 1 + 0) - 53) (-1074) = _
    omega
  unfold UnpackedFloat.ofNat UnpackedFloat.ofInt UnpackedFloat.normalize
  rw [hcompare]
  unfold UnpackedFloat.round UnpackedFloat.decreaseExponent
  dsimp only
  rw [Int.toNat_natCast, htarget, Nat.shiftLeft_eq]
  have hshift : (0 - -((52 - n.log2 : ℕ) : ℤ)).toNat = 52 - n.log2 := by omega
  rw [hshift, zero_sub]

theorem rounds_small {n : ℕ} (hpos : 0 < n) (hlt : n < 2 ^ 53) :
    Rounds .positive n (UnpackedFloat.ofNat Format.binary64 n) := by
  have hlog : n.log2 < 53 := (Nat.log2_lt (by omega)).mpr hlt
  have hfull : (n * 2 ^ (52 - n.log2)).log2 = 52 + 0 := by
    rw [log2_mul_two_pow (by omega)]
    omega
  have hvalue : ((n * 2 ^ (52 - n.log2) : ℕ) : ℚ) * 2 ^ (-(52 - n.log2 : ℕ) : ℤ) = n := by
    rw [zpow_neg, zpow_natCast]
    push_cast
    rw [mul_assoc, mul_inv_cancel₀ (by positivity), mul_one]
  rw [round_small hpos hlt, ← hvalue]
  apply rounds_roundWithAccuracy hfull <;> push_cast <;> omega

theorem mul_finite (s₁ s₂ : Sign) (m₁ m₂ : ℕ) (e₁ e₂ : ℤ) (h₁ : 0 < m₁) (h₂ : 0 < m₂) :
    UnpackedFloat.mul Format.binary64 (.finite s₁ m₁ e₁ h₁) (.finite s₂ m₂ e₂ h₂) =
      UnpackedFloat.roundWithAccuracy Format.binary64 (s₁ * s₂) (m₁ * m₂) (e₁ + e₂) .exact := rfl

theorem ofScientific_large {n : ℕ} (hlarge : 2 ^ 53 ≤ n) :
    UnpackedFloat.ofScientific Format.binary64 n 0 =
      UnpackedFloat.roundWithAccuracy Format.binary64 .positive (n * 2 ^ 53) (-53) .exact := by
  unfold UnpackedFloat.ofScientific
  have hleast : ¬(0 : ℤ) < -(2 ^ 11 + (n.log2 : ℤ)) := by omega
  rw [dif_neg (by omega), if_neg (by decide), if_neg hleast, if_pos le_rfl, mul_finite,
    Nat.shiftLeft_eq, Int.toNat_zero, pow_zero, mul_one, add_zero]
  rfl

theorem unpack_toFloat {n : ℕ} (hpos : 0 < n) (hlt : n < 2 ^ 53) :
    n.toUInt64.toFloat.toModel.unpack = UnpackedFloat.ofNat Format.binary64 n := by
  have htoNat : n.toUInt64.toNat = n := by
    change n % 2 ^ 64 = n
    omega
  conv_rhs => rw [← (rounds_small hpos hlt).unpack_pack, ← htoNat]
  rfl

theorem rounds_times_one {n : ℕ} (hpos : 0 < n) (hlt : n < 2 ^ 53) :
    Rounds .positive n
      (n.toUInt64.toFloat * Float.exactlyRepresentablePowersOfTen[0]).toModel.unpack := by
  obtain ⟨m, e, hm, hu, hnormal, hclosest⟩ := rounds_small hpos hlt
  have hvalue : (m : ℚ) * 2 ^ e = n := by
    apply hclosest.eq_of_onGrid
    apply onGrid_intCast (n := n)
    rw [Nat.abs_cast]
    exact_mod_cast hlt.le
  have hexponent : e < 1 := by
    apply hnormal.exponent_lt
    rw [hvalue]
    exact_mod_cast hlt
  have hproduct : (n.toUInt64.toFloat * Float.exactlyRepresentablePowersOfTen[0]).toModel =
      Float.Model.pack (UnpackedFloat.roundWithAccuracy Format.binary64 .positive
        (m * 2 ^ 52) (e + -52) .exact) := by
    change Float.Model.pack (UnpackedFloat.mul Format.binary64
      n.toUInt64.toFloat.toModel.unpack (.finite .positive (2 ^ 52) (-52) (by decide))) = _
    rw [unpack_toFloat hpos hlt, hu]
    rfl
  have hlog : (m * 2 ^ 52).log2 = 52 + 52 := by
    rw [log2_mul_two_pow hm.ne', hnormal.log2]
  have hlow := hnormal.low
  have hround := rounds_roundWithAccuracy (s := .positive) hlog (e := e + -52)
    (by push_cast; omega) (by push_cast; omega)
  have hscale : ((m * 2 ^ 52 : ℕ) : ℚ) * 2 ^ (e + -52) = n := by
    rw [← hvalue, zpow_add₀ (by norm_num)]
    push_cast
    norm_num
    ring
  rw [hscale] at hround
  rw [hproduct, hround.unpack_pack]
  exact hround

theorem rounds_large {n : ℕ} (hlarge : 2 ^ 53 ≤ n) (hlt : n < 2 ^ 64) :
    Rounds .positive n
      (Float.Model.pack (UnpackedFloat.ofScientific Format.binary64 n 0)).unpack := by
  have hlog53 : 53 ≤ n.log2 := (Nat.le_log2 (by omega)).mpr hlarge
  have hlog64 : n.log2 < 64 := (Nat.log2_lt (by omega)).mpr hlt
  have hlog : (n * 2 ^ 53).log2 = 52 + (n.log2 + 1) := by
    rw [log2_mul_two_pow (by omega)]
    omega
  have hround := rounds_roundWithAccuracy (s := .positive) hlog (e := -53)
    (by push_cast; omega) (by push_cast; omega)
  have hscale : ((n * 2 ^ 53 : ℕ) : ℚ) * 2 ^ (-53 : ℤ) = n := by
    rw [zpow_neg, Nat.cast_mul, mul_assoc]
    norm_num
  rw [hscale, ← ofScientific_large hlarge] at hround
  rw [hround.unpack_pack]
  exact hround

/-- A number below two to the 53rd is multiplied by one, and a larger one by a power of two that
makes room for the rounding. -/
theorem rounds_ofNat {n : ℕ} (hpos : 0 < n) (hlt : n < 2 ^ 64) :
    Rounds .positive n (Float.ofNat n).toModel.unpack := by
  change Rounds .positive n (Float.ofScientific n false 0).toModel.unpack
  unfold Float.ofScientific
  by_cases hsmall : n < 2 ^ 53
  · rw [dif_pos ⟨hsmall, by decide⟩]
    exact rounds_times_one hpos hsmall
  · rw [dif_neg (by omega)]
    exact rounds_large (by omega) hlt

theorem Rounds.isFinite {s : Sign} {q : ℚ} {x : Float} (h : Rounds s q x.toModel.unpack) :
    x.isFinite = true := by
  obtain ⟨m, e, hm, hu, -, -⟩ := h
  change x.toModel.unpack.isFinite = true
  rw [hu]
  rfl

theorem Rounds.closest {q : ℚ} {x : Float} (h : Rounds .positive q x.toModel.unpack) :
    Closest (value x) q := by
  obtain ⟨m, e, hm, hu, -, hclosest⟩ := h
  have hvalue : value x = m * 2 ^ e := by
    unfold value
    rw [hu]
    rfl
  rwa [hvalue]

theorem Rounds.value_neg {q : ℚ} {x : Float} (h : Rounds .positive q x.toModel.unpack) :
    (-x).isFinite = true ∧ value (-x) = -value x := by
  refine ⟨(isFinite_neg x).mpr h.isFinite, ?_⟩
  obtain ⟨m, e, hm, hu, hnormal, -⟩ := h
  have hneg : (-x).toModel.unpack = .finite .negative m e hm := by
    change (Float.Model.pack x.toModel.unpack.neg).unpack = _
    rw [hu]
    exact unpack_pack_normal hnormal
  unfold value
  rw [hneg, hu]
  simp [unpackedValue, Sign.apply]

theorem ofInt_closest {n : ℤ} (h : |n| < 2 ^ 64) :
    (Float.ofInt n).isFinite = true ∧ Closest (value (Float.ofInt n)) n := by
  cases n with
  | ofNat n =>
    rcases Nat.eq_zero_or_pos n with rfl | hpos
    · have hzero : value (Float.ofInt (Int.ofNat 0)) = 0 := rfl
      refine ⟨rfl, fun g _ => ?_⟩
      rw [hzero]
      simp
    · have hround := rounds_ofNat hpos (by rw [Int.ofNat_eq_natCast, Nat.abs_cast] at h; omega)
      exact ⟨hround.isFinite, hround.closest⟩
  | negSucc n =>
    have hlt : ((n + 1 : ℕ) : ℤ) < 2 ^ 64 := by rwa [Int.abs_eq_natAbs] at h
    have hround := rounds_ofNat (n := n + 1) (by omega) (by omega)
    obtain ⟨hfinite, hvalue⟩ := hround.value_neg
    refine ⟨hfinite, ?_⟩
    have hclosest := hround.closest.neg
    rw [← hvalue] at hclosest
    have hcast : (Int.negSucc n : ℚ) = -(n + 1 : ℕ) := by
      rw [Int.negSucc_eq]
      push_cast
      ring
    rw [hcast]
    exact hclosest

structure IsNearest (x : Float) (q : ℚ) : Prop where
  finite : x.isFinite = true
  closest : ∀ y : Float, y.isFinite = true → |value x - q| ≤ |value y - q|

theorem isNearest_ofInt {n : ℤ} (h : |n| < 2 ^ 64) : IsNearest (Float.ofInt n) n := by
  obtain ⟨hfinite, hclosest⟩ := ofInt_closest h
  exact ⟨hfinite, fun y _ => hclosest (value y) (onGrid_value y)⟩

theorem isNearest_ofInt64 (n : Int64) : IsNearest (Float.ofInt n.toInt) (n.toInt : ℤ) := by
  apply isNearest_ofInt
  have hlow := n.le_toInt
  have hhigh := n.toInt_lt
  rw [abs_lt]
  omega

theorem value_ofInt {n : ℤ} (h : |n| ≤ 2 ^ 53) : value (Float.ofInt n) = n :=
  (ofInt_closest (h.trans_lt (by decide))).2.eq_of_onGrid (onGrid_intCast h)

end DesignProcess.Decimal
