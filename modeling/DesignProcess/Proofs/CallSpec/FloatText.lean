import DesignProcess.Proofs.CallSpec.Lexeme
import DesignProcess.Proofs.Decimal.Finite

namespace DesignProcess.CallSpec

open Decimal (Layout literal)

variable {ds : List Char}

theorem pointed_spells {cs whole fraction exponent : List Char}
    (hcs : cs = whole ++ '.' :: (fraction ++ exponent)) (hne : whole ≠ []) (hwhole : Digits whole)
    (hfraction : Digits fraction) (hexponent : Exponent exponent) :
    Spells cs (.float (String.ofList cs)) := by
  have htext : (String.ofList cs).toList = cs := String.toList_ofList
  have hspells : Spells (String.ofList cs).toList (.float (String.ofList cs)) := by
    apply Spells.pointed _ hne hwhole hfraction hexponent
    rw [htext, hcs]
  rwa [htext] at hspells

theorem digits_toDigits (n : Nat) : Digits (Nat.toDigits 10 n) := by
  intro c hc
  exact Nat.isDigit_of_mem_toDigits (by decide) (by decide) hc

theorem digits_replicate (n : Nat) : Digits (List.replicate n '0') := by
  intro c hc
  rw [List.eq_of_mem_replicate hc]
  rfl

theorem digits_append {es : List Char} (hd : Digits ds) (he : Digits es) : Digits (ds ++ es) :=
  List.forall_mem_append.mpr ⟨hd, he⟩

theorem signed_eq (n : Int) :
    Decimal.signed n = (if decide (n < 0) then ['-'] else []) ++ Nat.toDigits 10 n.natAbs := by
  unfold Decimal.signed
  by_cases h : n < 0
  · simp [h]
  · simp [h]

theorem exponent_signed (power : Int) : Exponent ('e' :: Decimal.signed power) := by
  rw [signed_eq]
  refine .scaled (.inl rfl) ?_ Nat.toDigits_ne_nil (digits_toDigits _)
  by_cases h : power < 0
  · simp [h]
  · simp [h]

theorem point_spells (hne : ds ≠ []) (hd : Digits ds) (e : Int) :
    Spells (literal.point ds e) (.float (String.ofList (literal.point ds e))) := by
  by_cases he : 0 ≤ e
  · have hpoint : literal.point ds e =
        (ds ++ List.replicate e.toNat '0') ++ '.' :: (['0'] ++ []) := by
      unfold Layout.point
      rw [if_pos he]
      rfl
    apply pointed_spells hpoint _ (digits_append hd (digits_replicate _)) (digits_replicate 1) .none
    exact List.append_ne_nil_of_left_ne_nil hne _
  · by_cases hplaces : (-e).toNat < ds.length
    · have hpoint : literal.point ds e = ds.take (ds.length - (-e).toNat) ++
          '.' :: (ds.drop (ds.length - (-e).toNat) ++ []) := by
        unfold Layout.point
        simp only [if_neg he, if_pos hplaces, List.append_nil]
      apply pointed_spells hpoint _ (fun c hc => hd c (List.mem_of_mem_take hc))
        (fun c hc => hd c (List.mem_of_mem_drop hc)) .none
      intro hnil
      have hlength := congrArg List.length hnil
      rw [List.length_take, List.length_nil] at hlength
      omega
    · have hpoint : literal.point ds e =
          ['0'] ++ '.' :: ((List.replicate ((-e).toNat - ds.length) '0' ++ ds) ++ []) := by
        unfold Layout.point
        simp only [if_neg he, if_neg hplaces, List.append_nil]
        rfl
      exact pointed_spells hpoint (List.cons_ne_nil _ _) (digits_replicate 1)
        (digits_append (digits_replicate _) hd) .none

theorem scientific_spells (hne : ds ≠ []) (hd : Digits ds) (e : Int) :
    Spells (Decimal.scientific ds e) (.float (String.ofList (Decimal.scientific ds e))) := by
  obtain ⟨d, rest, rfl⟩ := List.exists_cons_of_ne_nil hne
  obtain ⟨hfirst, hrest⟩ := List.forall_mem_cons.mp hd
  have hwhole : Digits [d] := List.forall_mem_singleton.mpr hfirst
  have hexponent := exponent_signed (e + (d :: rest).length - 1)
  cases rest with
  | nil =>
    have htext : (String.ofList (Decimal.scientific [d] e)).toList =
        [d] ++ ('e' :: Decimal.signed (e + [d].length - 1)) := by
      rw [String.toList_ofList]
      rfl
    have hspells := Spells.scaled htext hne hwhole (List.cons_ne_nil _ _) hexponent
    rwa [String.toList_ofList] at hspells
  | cons d' rest =>
    have hscientific : Decimal.scientific (d :: d' :: rest) e = [d] ++
        '.' :: ((d' :: rest) ++ 'e' :: Decimal.signed (e + (d :: d' :: rest).length - 1)) := by
      unfold Decimal.scientific
      simp
    exact pointed_spells hscientific (List.cons_ne_nil _ _) hwhole hrest hexponent

theorem magnitude_spells (bits : UInt64) :
    Spells (literal.magnitude bits) (.float (String.ofList (literal.magnitude bits))) := by
  unfold Layout.magnitude
  simp only
  split
  · exact point_spells (List.cons_ne_nil _ _) (digits_replicate 1) 0
  · unfold Layout.decimal
    simp only
    split
    · exact point_spells Nat.toDigits_ne_nil (digits_toDigits _) _
    · exact scientific_spells Nat.toDigits_ne_nil (digits_toDigits _) _

theorem text_spells {x : Float} (h : x.isFinite = true) :
    ∃ (negative : Bool) (digits : String), literal.text x =
      (if negative then ['-'] else []) ++ digits.toList ∧ Spells digits.toList (.float digits) := by
  have hspells := magnitude_spells x.toBits
  refine ⟨Nat.pow 2 63 ≤ x.toBits.toNat, String.ofList (literal.magnitude x.toBits), ?_, ?_⟩
  · unfold Layout.text
    simp only [Decimal.not_isNaN_of_isFinite h, Decimal.not_isInf_of_isFinite h,
      String.toList_ofList, decide_eq_true_eq, Bool.false_eq_true, if_false]
  · rwa [String.toList_ofList]

end DesignProcess.CallSpec
