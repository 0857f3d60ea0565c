import DesignProcess.Proofs.Component.Checking
import DesignProcess.Proofs.Decimal.Rounding

/-!
Integers against the bounds of their option: what is compared is the integer rounded to binary64,
so that a bound is missed by rounding alone where the integer lands on the bound itself.
-/

namespace DesignProcess.OptionRule

open Decimal (value IsNearest)

structure FiniteBounds (r : OptionRule) : Prop where
  lower : ∀ l ∈ r.lower, l.isFinite = true
  upper : ∀ u ∈ r.upper, u.isFinite = true

def Within (r : OptionRule) (q : ℚ) : Prop :=
  (∀ l ∈ r.lower, value l ≤ q) ∧ ∀ u ∈ r.upper, q ≤ value u

structure WithinRounded (r : OptionRule) (q : ℚ) (x : Float) : Prop where
  above : ∀ l ∈ r.lower, value l ≤ q ∨ value l = value x
  below : ∀ u ∈ r.upper, q ≤ value u ∨ value u = value x

variable {r : OptionRule} {x : Float} {q : ℚ}

theorem withinRounded_iff_of_eq (h : value x = q) : r.WithinRounded q x ↔ r.Within q := by
  constructor
  · rintro ⟨habove, hbelow⟩
    refine ⟨fun l hl => (habove l hl).elim id fun heq => (heq.trans h).le, fun u hu => ?_⟩
    exact (hbelow u hu).elim id fun heq => (heq.trans h).ge
  · rintro ⟨habove, hbelow⟩
    exact ⟨fun l hl => .inl (habove l hl), fun u hu => .inl (hbelow u hu)⟩

theorem rounded_lt_iff {x q b : ℚ} (h : |x - q| ≤ |b - q|) : x < b ↔ q < b ∧ b ≠ x := by
  constructor
  · intro hlt
    refine ⟨?_, hlt.ne'⟩
    by_contra hle
    rw [abs_of_neg (by linarith), abs_of_nonpos (by linarith)] at h
    linarith
  · rintro ⟨hlt, hne⟩
    rw [abs_of_pos (by linarith : 0 < b - q)] at h
    have hle := (le_abs_self (x - q)).trans h
    exact lt_of_le_of_ne (by linarith) hne.symm

theorem lt_rounded_iff {x q b : ℚ} (h : |x - q| ≤ |b - q|) : b < x ↔ b < q ∧ b ≠ x := by
  have hneg : |-x - -q| ≤ |-b - -q| := by
    rwa [← neg_sub', ← neg_sub', abs_neg, abs_neg]
  have := rounded_lt_iff hneg
  rwa [neg_lt_neg_iff, neg_lt_neg_iff, ne_eq, neg_inj] at this

theorem lt_iff_of_isNearest (h : IsNearest x q) {b : Float} (hb : b.isFinite = true) :
    x < b ↔ q < value b ∧ value b ≠ value x := by
  rw [Decimal.lt_iff_value_lt h.finite hb]
  exact rounded_lt_iff (h.closest b hb)

theorem gt_iff_of_isNearest (h : IsNearest x q) {b : Float} (hb : b.isFinite = true) :
    b < x ↔ value b < q ∧ value b ≠ value x := by
  rw [Decimal.lt_iff_value_lt hb h.finite]
  exact lt_rounded_iff (h.closest b hb)

theorem not_lt_iff_of_isNearest (h : IsNearest x q) {b : Float} (hb : b.isFinite = true) :
    ¬x < b ↔ value b ≤ q ∨ value b = value x := by
  rw [lt_iff_of_isNearest h hb, not_and_or, not_lt, ne_eq, not_not]

theorem not_gt_iff_of_isNearest (h : IsNearest x q) {b : Float} (hb : b.isFinite = true) :
    ¬b < x ↔ q ≤ value b ∨ value b = value x := by
  rw [gt_iff_of_isNearest h hb, not_and_or, not_lt, ne_eq, not_not]

theorem admitsNumber_iff_withinRounded (h : IsNearest x q) (hbounds : r.FiniteBounds) :
    r.AdmitsNumber x ↔ r.WithinRounded q x := by
  constructor
  · rintro ⟨-, habove, hbelow⟩
    constructor
    · intro l hl
      exact (not_lt_iff_of_isNearest h (hbounds.lower l hl)).mp (habove l hl)
    · intro u hu
      exact (not_gt_iff_of_isNearest h (hbounds.upper u hu)).mp (hbelow u hu)
  · rintro ⟨habove, hbelow⟩
    refine ⟨h.finite, ?_, ?_⟩
    · intro l hl
      exact (not_lt_iff_of_isNearest h (hbounds.lower l hl)).mpr (habove l hl)
    · intro u hu
      exact (not_gt_iff_of_isNearest h (hbounds.upper u hu)).mpr (hbelow u hu)

theorem checkNumber_eq_belowMinimum_iff (hx : x.isFinite = true) {l : Float} :
    r.checkNumber x = .error (.belowMinimum x l) ↔ l ∈ r.lower ∧ x < l := by
  have hlower : r.lower.filter (x < ·) = some l ↔ l ∈ r.lower ∧ x < l := by
    rw [Option.filter_eq_some_iff, decide_eq_true_iff, Option.mem_def]
  unfold checkNumber
  rw [← hlower, hx]
  cases r.lower.filter (x < ·) <;> cases r.upper.filter (· < x) <;> simp

theorem checkNumber_eq_aboveMaximum_iff (hx : x.isFinite = true) {u : Float} :
    r.checkNumber x = .error (.aboveMaximum x u) ↔
      (u ∈ r.upper ∧ u < x) ∧ ∀ l ∈ r.lower, ¬x < l := by
  have hlower : r.lower.filter (x < ·) = none ↔ ∀ l ∈ r.lower, ¬x < l := by
    rw [Option.filter_eq_none_iff]
    simp only [decide_eq_true_iff, Option.mem_def]
  have hupper : r.upper.filter (· < x) = some u ↔ u ∈ r.upper ∧ u < x := by
    rw [Option.filter_eq_some_iff, decide_eq_true_iff, Option.mem_def]
  unfold checkNumber
  rw [← hlower, ← hupper, hx]
  cases r.lower.filter (x < ·) <;> cases r.upper.filter (· < x) <;> simp

theorem check_integer {n : Int64} (hkind : r.kind = .integer) :
    r.check (.integer n) = (r.checkNumber (Float.ofInt n.toInt)).map fun _ => .integer n := by
  unfold check
  rw [hkind]
  change (r.checkNumber (Float.ofInt n.toInt) >>= fun _ => pure (Scalar.integer n)) = _
  cases r.checkNumber (Float.ofInt n.toInt) <;> rfl

/-- An integer is rounded to binary64 before it meets the bounds. So it is refused only where it
lies beyond a bound, and stored beyond one only where it rounds to that very bound, which takes more
than 53 bits. -/
theorem integer_stored_iff_within_rounded {n : Int64} (hkind : r.kind = .integer)
    (hbounds : r.FiniteBounds) :
    let x := Float.ofInt n.toInt
    IsNearest x n.toInt ∧
      (∀ stored, r.check (.integer n) = .ok stored ↔
        stored = .integer n ∧ r.WithinRounded n.toInt x) ∧
      (∀ l, r.check (.integer n) = .error (.belowMinimum x l) ↔
        l ∈ r.lower ∧ n.toInt < value l ∧ value l ≠ value x) ∧
      (∀ u, r.check (.integer n) = .error (.aboveMaximum x u) ↔
        u ∈ r.upper ∧ value u < n.toInt ∧ value u ≠ value x ∧
          ∀ l ∈ r.lower, value l ≤ n.toInt ∨ value l = value x) ∧
      (|n.toInt| ≤ 2 ^ 53 → (r.WithinRounded n.toInt x ↔ r.Within n.toInt)) := by
  intro x
  have hnearest : IsNearest x n.toInt := Decimal.isNearest_ofInt64 n
  rw [check_integer hkind]
  refine ⟨hnearest, fun stored => ?_, fun l => ?_, fun u => ?_, fun h => ?_⟩
  · rw [← admitsNumber_iff_withinRounded hnearest hbounds, ← checkNumber_eq_ok_iff]
    cases r.checkNumber x <;> simp [Except.map, eq_comm]
  · rw [Except.map_eq_error_iff, checkNumber_eq_belowMinimum_iff hnearest.finite]
    apply and_congr_right
    intro hl
    exact lt_iff_of_isNearest hnearest (hbounds.lower l hl)
  · rw [Except.map_eq_error_iff, checkNumber_eq_aboveMaximum_iff hnearest.finite, and_assoc]
    apply and_congr_right
    intro hu
    rw [gt_iff_of_isNearest hnearest (hbounds.upper u hu), and_assoc]
    apply and_congr_right'
    apply and_congr_right'
    apply forall₂_congr
    intro l hl
    exact not_lt_iff_of_isNearest hnearest (hbounds.lower l hl)
  · exact withinRounded_iff_of_eq (Decimal.value_ofInt h)

def atMostWord : OptionRule :=
  { plain "iterations" .integer with upper := some (Float.ofInt (2 ^ 53)) }

theorem integer_stored_iff_within_rounded_atMostWord :
    atMostWord.kind = .integer ∧ atMostWord.FiniteBounds ∧
      atMostWord.check (.integer 9007199254740994) =
        .error (.aboveMaximum (Float.ofInt 9007199254740994) (Float.ofInt (2 ^ 53))) := by
  have hbounds : atMostWord.FiniteBounds := by
    constructor
    · intro l hl
      cases hl
    · intro u hu
      rw [← Option.some.inj hu]
      exact (Decimal.ofInt_closest (by decide)).1
  refine ⟨rfl, hbounds, ?_⟩
  obtain ⟨-, -, -, hupper, -⟩ :=
    integer_stored_iff_within_rounded (n := 9007199254740994) rfl hbounds
  have hmaximum : value (Float.ofInt (2 ^ 53)) = 2 ^ 53 := by
    rw [Decimal.value_ofInt (by decide)]
    norm_num
  have hrounded : value (Float.ofInt 9007199254740994) = 2 ^ 53 + 2 := by
    have hunpack : (Float.ofInt 9007199254740994).toModel.unpack =
        .finite .positive (2 ^ 52 + 1) 1 (by decide) := rfl
    unfold Decimal.value
    rw [hunpack]
    norm_num [Decimal.unpackedValue, Float.Model.UnpackedFloat.Sign.apply]
  have htoInt : (9007199254740994 : Int64).toInt = 9007199254740994 := rfl
  rw [htoInt] at hupper
  refine (hupper _).mpr ⟨rfl, ?_, ?_, fun l hl => ?_⟩
  · rw [hmaximum]
    norm_num
  · rw [hmaximum, hrounded]
    norm_num
  · cases hl

theorem stored_above_maximum :
    atMostWord.check (.integer 9007199254740993) = .ok (.integer 9007199254740993) ∧
      ¬atMostWord.Within 9007199254740993 := by
  refine ⟨rfl, fun h => ?_⟩
  have hle := h.2 _ rfl
  rw [Decimal.value_ofInt (by decide)] at hle
  norm_num at hle

end DesignProcess.OptionRule
