import DesignProcess.Proofs.Decimal.Finite

namespace DesignProcess.Decimal

open Float.Model (Format UnpackedFloat)
open Float.Model.UnpackedFloat (Sign)

def unpackedValue : UnpackedFloat → ℚ
  | .finite s m e _ => (s.apply m : ℤ) * 2 ^ e
  | .zero _ | .infinity _ | .notANumber => 0

/-- Infinities and NaNs are no number, and count as zero here. -/
def value (x : Float) : ℚ := unpackedValue x.toModel.unpack

structure IsCanonical (m : ℕ) (e : ℤ) : Prop where
  lt : m < 2 ^ 53
  low : -1074 ≤ e
  full : 2 ^ 52 ≤ m ∨ e = -1074

def OnGrid (q : ℚ) : Prop := ∃ (a e : ℤ), |a| < 2 ^ 53 ∧ -1074 ≤ e ∧ q = a * 2 ^ e

theorem OnGrid.neg {q : ℚ} (h : OnGrid q) : OnGrid (-q) := by
  obtain ⟨a, e, ha, he, rfl⟩ := h
  exact ⟨-a, e, by rwa [abs_neg], he, by push_cast; ring⟩

theorem onGrid_intCast {n : ℤ} (h : |n| ≤ 2 ^ 53) : OnGrid n := by
  rcases h.lt_or_eq with hlt | heq
  · exact ⟨n, 0, hlt, by decide, by simp⟩
  · rcases eq_or_eq_neg_of_abs_eq heq with rfl | rfl
    · exact ⟨2 ^ 52, 1, by decide, by decide, by norm_num⟩
    · exact ⟨-2 ^ 52, 1, by decide, by decide, by norm_num⟩

theorem toNat_leadingOne_append (v : BitVec 52) : (1#1 ++ v).toNat = 2 ^ 52 + v.toNat := by
  rw [BitVec.toNat_append, ← Nat.shiftLeft_add_eq_or_of_lt v.isLt]
  rfl

theorem isCanonical_of_unpack {b : BitVec 64} {s : Sign} {m : ℕ} {e : ℤ} {hm : 0 < m}
    (h : UnpackedFloat.unpack Format.binary64 b = .finite s m e hm) : IsCanonical m e := by
  unfold UnpackedFloat.unpack at h
  dsimp only at h
  split at h
  · split at h <;> cases h
  · split at h
    · rename_i hzero
      split at h
      · cases h
      · cases h
        have hlt := (@UnpackedFloat.unpackMantissa Format.binary64 b).isLt
        change _ < 2 ^ 52 at hlt
        have hlow : ((@UnpackedFloat.unpackExponent Format.binary64 b).toNat : ℤ) -
            ((Format.binary64.exponentBias : ℤ) + 52) + 1 = -1074 := by
          rw [hzero]
          rfl
        exact ⟨by omega, hlow.ge, .inr hlow⟩
    · rename_i hzero
      cases h
      have hlt := (@UnpackedFloat.unpackMantissa Format.binary64 b).isLt
      change _ < 2 ^ 52 at hlt
      have hpos : (@UnpackedFloat.unpackExponent Format.binary64 b).toNat ≠ 0 :=
        fun heq => hzero (BitVec.eq_of_toNat_eq heq)
      have hmantissa := toNat_leadingOne_append (@UnpackedFloat.unpackMantissa Format.binary64 b)
      refine ⟨?_, ?_, .inl ?_⟩
      · rw [hmantissa]
        omega
      · change -1074 ≤ ((@UnpackedFloat.unpackExponent Format.binary64 b).toNat : ℤ) - (1023 + 52)
        omega
      · rw [hmantissa]
        omega

theorem onGrid_value (x : Float) : OnGrid (value x) := by
  unfold value
  cases h : x.toModel.unpack with
  | finite s m e hm =>
    obtain ⟨hlt, hlow, -⟩ := isCanonical_of_unpack h
    refine ⟨s.apply m, e, ?_, hlow, rfl⟩
    cases s <;> simp only [Sign.apply, abs_neg, Nat.abs_cast] <;> exact_mod_cast hlt
  | infinity | zero | notANumber => exact ⟨0, 0, by decide, by decide, by simp [unpackedValue]⟩

theorem IsCanonical.lt_of_exponent_lt {m₁ m₂ : ℕ} {e₁ e₂ : ℤ} (h₁ : IsCanonical m₁ e₁)
    (h₂ : IsCanonical m₂ e₂) (he : e₁ < e₂) : (m₁ : ℚ) * 2 ^ e₁ < m₂ * 2 ^ e₂ := by
  have hfull : 2 ^ 52 ≤ m₂ := by
    have hlow := h₁.low
    rcases h₂.full with hfull | hleast
    · exact hfull
    · omega
  calc (m₁ : ℚ) * 2 ^ e₁
      < 2 ^ 53 * 2 ^ e₁ := by
        apply mul_lt_mul_of_pos_right _ (by positivity)
        exact_mod_cast h₁.lt
    _ = 2 ^ 52 * 2 ^ (e₁ + 1) := by
        rw [zpow_add₀ (by norm_num)]
        ring
    _ ≤ 2 ^ 52 * 2 ^ e₂ := by
        apply mul_le_mul_of_nonneg_left _ (by positivity)
        exact zpow_le_zpow_right₀ (by norm_num) (by omega)
    _ ≤ m₂ * 2 ^ e₂ := by
        apply mul_le_mul_of_nonneg_right _ (by positivity)
        exact_mod_cast hfull

theorem IsCanonical.compare_eq_lt_iff {m₁ m₂ : ℕ} {e₁ e₂ : ℤ} (h₁ : IsCanonical m₁ e₁)
    (h₂ : IsCanonical m₂ e₂) :
    (compare e₁ e₂).then (compare m₁ m₂) = .lt ↔ (m₁ : ℚ) * 2 ^ e₁ < m₂ * 2 ^ e₂ := by
  rw [Ordering.then_eq_lt, compare_lt_iff_lt, compare_eq_iff_eq, compare_lt_iff_lt]
  rcases lt_trichotomy e₁ e₂ with hlt | rfl | hgt
  · exact iff_of_true (.inl hlt) (h₁.lt_of_exponent_lt h₂ hlt)
  · have hpos : (0 : ℚ) < 2 ^ e₁ := by positivity
    rw [mul_lt_mul_iff_of_pos_right hpos, Nat.cast_lt]
    simp
  · refine iff_of_false ?_ (h₂.lt_of_exponent_lt h₁ hgt).not_gt
    rintro (hlt | ⟨heq, -⟩) <;> omega

theorem IsCanonical.swap_compare_eq_lt_iff {m₁ m₂ : ℕ} {e₁ e₂ : ℤ} (h₁ : IsCanonical m₁ e₁)
    (h₂ : IsCanonical m₂ e₂) :
    ((compare e₁ e₂).then (compare m₁ m₂)).swap = .lt ↔ (m₂ : ℚ) * 2 ^ e₂ < m₁ * 2 ^ e₁ := by
  rw [Ordering.swap_then, ← Std.OrientedCmp.eq_swap, ← Std.OrientedCmp.eq_swap]
  exact h₂.compare_eq_lt_iff h₁

theorem compare_eq_lt_iff {a b : BitVec 64}
    (ha : (UnpackedFloat.unpack Format.binary64 a).isFinite = true)
    (hb : (UnpackedFloat.unpack Format.binary64 b).isFinite = true) :
    (UnpackedFloat.unpack Format.binary64 a).compare (UnpackedFloat.unpack Format.binary64 b) =
        some .lt ↔
      unpackedValue (UnpackedFloat.unpack Format.binary64 a) <
        unpackedValue (UnpackedFloat.unpack Format.binary64 b) := by
  have hpos {m : ℕ} {e : ℤ} (hm : 0 < m) : (0 : ℚ) < m * 2 ^ e := by positivity
  cases hua : UnpackedFloat.unpack Format.binary64 a with
  | infinity | notANumber => simp [hua, UnpackedFloat.isFinite] at ha
  | zero s =>
    cases hub : UnpackedFloat.unpack Format.binary64 b with
    | infinity | notANumber => simp [hub, UnpackedFloat.isFinite] at hb
    | zero t => simp [UnpackedFloat.compare, unpackedValue]
    | finite t m e hm =>
      have := hpos (e := e) hm
      cases t
      · simp [UnpackedFloat.compare, unpackedValue, Sign.apply, this.le]
      · simp [UnpackedFloat.compare, unpackedValue, Sign.apply, this]
  | finite s m e hm =>
    have hcanonical := isCanonical_of_unpack hua
    have hm := hpos (e := e) hm
    cases hub : UnpackedFloat.unpack Format.binary64 b with
    | infinity | notANumber => simp [hub, UnpackedFloat.isFinite] at hb
    | zero t =>
      cases s
      · simp [UnpackedFloat.compare, unpackedValue, Sign.apply, hm]
      · simp [UnpackedFloat.compare, unpackedValue, Sign.apply, hm.le]
    | finite t m' e' hm' =>
      have hcanonical' := isCanonical_of_unpack hub
      have hm' := hpos (e := e') hm'
      cases s <;> cases t
      · simp only [UnpackedFloat.compare, unpackedValue, Sign.apply, Option.some.injEq,
          hcanonical.swap_compare_eq_lt_iff hcanonical', Int.cast_neg, Int.cast_natCast, neg_mul,
          neg_lt_neg_iff]
      · simp only [UnpackedFloat.compare, unpackedValue, Sign.apply, Int.cast_neg,
          Int.cast_natCast, neg_mul, true_iff]
        linarith
      · simp only [UnpackedFloat.compare, unpackedValue, Sign.apply, Int.cast_neg,
          Int.cast_natCast, neg_mul, Option.some.injEq, reduceCtorEq, false_iff, not_lt]
        linarith
      · simp only [UnpackedFloat.compare, unpackedValue, Sign.apply, Option.some.injEq,
          hcanonical.compare_eq_lt_iff hcanonical', Int.cast_natCast]

theorem lt_iff_value_lt {x y : Float} (hx : x.isFinite = true) (hy : y.isFinite = true) :
    x < y ↔ value x < value y := by
  have h : x < y ↔ x.toModel.unpack.compare y.toModel.unpack = some .lt := by
    change (decide _ = true) ↔ _
    rw [decide_eq_true_iff]
    exact beq_iff_eq
  rw [h]
  exact compare_eq_lt_iff hx hy

end DesignProcess.Decimal
