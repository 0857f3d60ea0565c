import DesignProcess.Decimal.Layout
import DesignProcess.Proofs.Text.Classes
import DesignProcess.Toml.Atom
import Mathlib

namespace DesignProcess.Decimal

theorem isDigit_toDigits {n : ℕ} {c : Char} (h : c ∈ Nat.toDigits 10 n) : c.isDigit = true :=
  Nat.isDigit_of_mem_toDigits (by decide) (by decide) h

theorem toDigits_injective {i j : ℕ} (h : Nat.toDigits 10 i = Nat.toDigits 10 j) : i = j := by
  calc
    i = Nat.ofDigitChars 10 (Nat.toDigits 10 i) 0 := Nat.ofDigitChars_ten_toDigits.symm
    _ = Nat.ofDigitChars 10 (Nat.toDigits 10 j) 0 := by rw [h]
    _ = j := Nat.ofDigitChars_ten_toDigits

theorem digitChar_ne_zero {n : ℕ} (hpos : 0 < n) (hlt : n < 10) : n.digitChar ≠ '0' := by
  interval_cases n <;> decide

theorem head_toDigits_ne_zero {n : ℕ} (hpos : 0 < n) : (Nat.toDigits 10 n).head? ≠ some '0' := by
  induction n using Nat.strongRecOn with
  | ind n ih =>
    rcases Nat.lt_or_ge n 10 with hlt | hge
    · rw [Nat.toDigits_of_lt_base hlt, List.head?_cons]
      exact fun h => digitChar_ne_zero hpos hlt (Option.some.inj h)
    · rw [Nat.toDigits_of_base_le (by decide) hge,
        List.head?_append_of_ne_nil _ Nat.toDigits_ne_nil]
      exact ih (n / 10) (by omega) (by omega)

theorem toDigits_zero_cons {n : ℕ} {r : List Char} (h : Nat.toDigits 10 n = '0' :: r) : r = [] := by
  rcases Nat.eq_zero_or_pos n with rfl | hpos
  · rw [Nat.toDigits_zero] at h
    exact (List.cons.inj h).2.symm
  · exact absurd (by rw [h, List.head?_cons]) (head_toDigits_ne_zero hpos)

theorem toDigits_cons (n : ℕ) : ∃ c r, Nat.toDigits 10 n = c :: r ∧ c.isDigit = true ∧
    (c = '0' → r = []) := by
  obtain ⟨c, r, h⟩ := List.exists_cons_of_ne_nil (Nat.toDigits_ne_nil (n := n) (b := 10))
  refine ⟨c, r, h, isDigit_toDigits (n := n) (by simp [h]), ?_⟩
  rintro rfl
  exact toDigits_zero_cons h

theorem signed_cons (n : ℤ) :
    ∃ c r, signed n = c :: r ∧ (c = '-' ∨ c.isDigit = true) := by
  obtain ⟨c, r, hdigits, hc, -⟩ := toDigits_cons n.natAbs
  unfold signed
  rw [hdigits]
  split
  · exact ⟨'-', c :: r, rfl, .inl rfl⟩
  · exact ⟨c, r, rfl, .inr hc⟩

theorem natInBase_toDigits (n : ℕ) : Toml.Atom.natInBase 10 (Nat.toDigits 10 n) = n := by
  have hstep : ∀ c ∈ Nat.toDigits 10 n, Toml.Atom.hexDigit c = c.toNat - '0'.toNat :=
    fun c hc => if_pos (isDigit_toDigits hc)
  have hfold : Toml.Atom.natInBase 10 (Nat.toDigits 10 n) = natOfDigits (Nat.toDigits 10 n) := by
    unfold natOfDigits
    rw [Nat.ofDigitChars_eq_foldl]
    apply List.foldl_ext
    intro found c hc
    rw [hstep c hc]
  rw [hfold]
  exact Nat.ofDigitChars_ten_toDigits

def nearestInt (n : ℤ) : Float :=
  if n < 0 then -nearest n.natAbs 0 else nearest n.natAbs 0

theorem numeral_toDigits (n : ℕ) :
    Numeral.ofText? (Nat.toDigits 10 n) = some ⟨Nat.toDigits 10 n, [], 0⟩ := by
  have hdigits : ∀ c ∈ Nat.toDigits 10 n, c.isDigit = true := fun _ hc => isDigit_toDigits hc
  have hwhole : (Nat.toDigits 10 n).takeWhile Char.isDigit = Nat.toDigits 10 n :=
    List.takeWhile_eq_self_iff.mpr hdigits
  have htail : (Nat.toDigits 10 n).dropWhile Char.isDigit = [] :=
    List.dropWhile_eq_nil_iff.mpr hdigits
  unfold Numeral.ofText?
  rw [hwhole, htail]
  simp [Nat.toDigits_ne_nil]

theorem float?_of_ne {c : Char} {r : List Char} (hplus : c ≠ '+') (hminus : c ≠ '-') :
    float? (c :: r) = (Numeral.ofText? (c :: r)).map Numeral.toFloat := by
  unfold float?
  split
  · rename_i heq
    exact absurd (List.cons.inj heq).1 hminus
  · rename_i heq
    exact absurd (List.cons.inj heq).1 hplus
  · rfl

theorem float?_signed (n : ℤ) : float? (signed n) = some (nearestInt n) := by
  have hvalue : (Numeral.mk (Nat.toDigits 10 n.natAbs) [] 0).toFloat = nearest n.natAbs 0 := by
    simp [Numeral.toFloat, natOfDigits, Nat.ofDigitChars_ten_toDigits]
  have hread : (Numeral.ofText? (Nat.toDigits 10 n.natAbs)).map Numeral.toFloat =
      some (nearest n.natAbs 0) := by
    rw [numeral_toDigits, Option.map_some, hvalue]
  unfold signed nearestInt
  split
  · change (Numeral.ofText? (Nat.toDigits 10 n.natAbs)).map (fun d => -d.toFloat) = _
    rw [numeral_toDigits, Option.map_some, hvalue]
  · obtain ⟨c, r, hdigits, hc, -⟩ := toDigits_cons n.natAbs
    rw [hdigits] at hread ⊢
    rw [float?_of_ne (Text.ne_of_class hc rfl) (Text.ne_of_class hc rfl), hread]

theorem int64?_eq_some {n : ℤ} (hlow : -2 ^ 63 ≤ n) (hhigh : n < 2 ^ 63) :
    int64? n = some (Int64.ofInt n) := by
  apply if_pos
  have hmin : Int64.minValue.toInt = -2 ^ 63 := rfl
  have hmax : Int64.maxValue.toInt = 2 ^ 63 - 1 := rfl
  omega

theorem int64?_eq_none {n : ℤ} (h : n < -2 ^ 63 ∨ 2 ^ 63 ≤ n) : int64? n = none := by
  apply if_neg
  have hmin : Int64.minValue.toInt = -2 ^ 63 := rfl
  have hmax : Int64.maxValue.toInt = 2 ^ 63 - 1 := rfl
  omega

theorem fitsWord_iff {bits : ℕ} {n : ℤ} :
    fitsWord bits n = true ↔ -2 ^ (bits - 1) ≤ n ∧ n < 2 ^ bits := by
  simp [fitsWord]

end DesignProcess.Decimal
