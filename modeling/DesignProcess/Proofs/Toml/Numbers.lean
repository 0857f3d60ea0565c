import DesignProcess.Proofs.Decimal.Signed
import DesignProcess.Toml.Reading

namespace DesignProcess.Toml

namespace Atom

theorem ungroup?_digits {ds : List Char} (hne : ds ≠ []) (h : ∀ c ∈ ds, c.isDigit = true) :
    ungroup? Char.isDigit ds = some ds := by
  induction ds with
  | nil => exact absurd rfl hne
  | cons c ds ih =>
    obtain ⟨hc, hds⟩ := List.forall_mem_cons.mp h
    cases ds with
    | nil => simp [ungroup?, hc]
    | cons d ds =>
      have hd : d ≠ '_' := Text.ne_of_class (hds d List.mem_cons_self) rfl
      rw [ungroup?]
      · rw [if_pos hc, ih (List.cons_ne_nil d ds) hds]
        rfl
      · intro hnil
        cases hnil
      · intro r heq
        exact hd (List.cons.inj heq).1

theorem whole?_toDigits (n : ℕ) : whole? (Nat.toDigits 10 n) = some (Nat.toDigits 10 n) := by
  have hungroup := ungroup?_digits (Nat.toDigits_ne_nil (n := n) (b := 10))
    fun _ hc => Decimal.isDigit_toDigits hc
  unfold whole?
  rw [hungroup]
  split
  · rename_i heq
    exact heq.symm
  · rename_i hone heq
    exact (hone (Decimal.toDigits_zero_cons (Option.some.inj heq))).elim
  · rfl

theorem unsigned?_toDigits (negative : Bool) (n : ℕ) :
    unsigned? negative (Nat.toDigits 10 n) = some (.integer (if negative then -n else n)) := by
  have hgrouped : ∀ c ∈ Nat.toDigits 10 n, isGrouped c = true := by
    intro c hc
    simp [isGrouped, Decimal.isDigit_toDigits hc]
  have htake : (Nat.toDigits 10 n).takeWhile isGrouped = Nat.toDigits 10 n :=
    List.takeWhile_eq_self_iff.mpr hgrouped
  have hdrop : (Nat.toDigits 10 n).dropWhile isGrouped = [] :=
    List.dropWhile_eq_nil_iff.mpr hgrouped
  have hvalue : Decimal.natOfDigits (Nat.toDigits 10 n) = n := Nat.ofDigitChars_ten_toDigits
  have hword : ∀ w ∈ ["inf".toList, "nan".toList], Nat.toDigits 10 n ≠ w := by
    obtain ⟨c, r, hdigits, hc, -⟩ := Decimal.toDigits_cons n
    rw [hdigits]
    simp [Text.ne_of_class hc (d := 'i') rfl, Text.ne_of_class hc (d := 'n') rfl]
  unfold unsigned?
  rw [if_neg (hword _ (by simp)), if_neg (hword _ (by simp)), htake, hdrop, whole?_toDigits]
  change some (Value.integer _) = _
  rw [hvalue]

theorem number?_signed (n : ℤ) : number? (Decimal.signed n) = some (.integer n) := by
  obtain ⟨c, r, hdigits, hc, hzero⟩ := Decimal.toDigits_cons n.natAbs
  unfold Decimal.signed
  split
  · have hvalue : -(n.natAbs : ℤ) = n := by omega
    change unsigned? true (Nat.toDigits 10 n.natAbs) = _
    rw [unsigned?_toDigits, if_pos rfl, hvalue]
  · have hvalue : (n.natAbs : ℤ) = n := by omega
    have hunsigned := unsigned?_toDigits false n.natAbs
    rw [hdigits] at hunsigned ⊢
    unfold number?
    split
    · rename_i heq
      cases heq
      cases hzero rfl
    · rename_i heq
      cases heq
      cases hzero rfl
    · rename_i heq
      cases heq
      cases hzero rfl
    · rename_i heq
      cases heq
      exact absurd hc (by decide)
    · rename_i heq
      cases heq
      exact absurd hc (by decide)
    · rw [hunsigned, if_neg (by decide), hvalue]

theorem value?_signed (n : ℤ) : value? (Decimal.signed n) = some (.integer n) := by
  obtain ⟨c, r, hsigned, hc⟩ := Decimal.signed_cons n
  have hword : ∀ w ∈ ["true".toList, "false".toList], Decimal.signed n ≠ w := by
    have hletter : c ≠ 't' ∧ c ≠ 'f' := by
      constructor <;> rintro rfl <;> revert hc <;> decide
    rw [hsigned]
    simp [hletter]
  unfold value?
  rw [if_neg (hword _ (by simp)), if_neg (hword _ (by simp)), number?_signed]

theorem isAtomChar_signed (n : ℤ) : ∀ c ∈ Decimal.signed n, isAtomChar c = true := by
  have hdigits : ∀ c ∈ Nat.toDigits 10 n.natAbs, isAtomChar c = true := by
    intro c hc
    simp [isAtomChar, Char.isAlphanum, Decimal.isDigit_toDigits hc]
  unfold Decimal.signed
  split
  · exact List.forall_mem_cons.mpr ⟨rfl, hdigits⟩
  · exact hdigits

end Atom

namespace Value

theorem read_atom {c : Char} (h : ¬(c = '"' ∨ c = '\'' ∨ c = '[' ∨ c = '{')) (fuel depth : ℕ)
    (r : List Char) : read (fuel + 1) depth (c :: r) = atom (c :: r) := by
  simp only [not_or] at h
  rw [read.eq_def]
  simp [h]

theorem read_signed (n : ℤ) (fuel depth : ℕ) (r : List Char) :
    read (fuel + 1) depth (Decimal.signed n ++ '\n' :: r) = some (.integer n, '\n' :: r) := by
  have hchars : ∀ c ∈ Decimal.signed n, Atom.isAtomChar c = true := Atom.isAtomChar_signed n
  have hcut : Atom.cut (Decimal.signed n ++ '\n' :: r) = (Decimal.signed n, '\n' :: r) := by
    unfold Atom.cut
    rw [List.takeWhile_append_of_pos hchars, List.dropWhile_append_of_pos hchars]
    simp [Atom.isAtomChar]
  have hatom : atom (Decimal.signed n ++ '\n' :: r) = some (.integer n, '\n' :: r) := by
    unfold atom
    rw [hcut]
    dsimp only
    rw [Atom.value?_signed]
    rfl
  obtain ⟨c, ds, hsigned, hc⟩ := Decimal.signed_cons n
  rw [hsigned, List.cons_append] at hatom ⊢
  rw [read_atom, hatom]
  rintro (rfl | rfl | rfl | rfl) <;> revert hc <;> decide

def IsVerbatim (c : Char) : Prop := Quoted.isTextChar c = true ∧ c ≠ '"' ∧ c ≠ '\\'

theorem basic_cons {c : Char} (h : IsVerbatim c) (r : List Char) :
    Quoted.basic (c :: r) = Quoted.Cut.push (some c) (Quoted.basic r) := by
  obtain ⟨htext, hquote, hescape⟩ := h
  rw [Quoted.basic]
  · simp [htext, hescape]
  · exact hquote
  all_goals
    intros
    contradiction

theorem basic_verbatim {w : List Char} (h : ∀ c ∈ w, IsVerbatim c) (r : List Char) :
    Quoted.basic (w ++ '"' :: r) = some (w, r) := by
  induction w with
  | nil => rfl
  | cons c w ih =>
    obtain ⟨hc, hw⟩ := List.forall_mem_cons.mp h
    rw [List.cons_append, basic_cons hc, ih hw]
    rfl

theorem read_quoted {w : List Char} (hne : w ≠ []) (h : ∀ c ∈ w, IsVerbatim c)
    (fuel depth : ℕ) (r : List Char) :
    read (fuel + 1) depth ('"' :: (w ++ '"' :: r)) = some (.string (String.ofList w), r) := by
  obtain ⟨c, w, rfl⟩ := List.exists_cons_of_ne_nil hne
  have hc : c ≠ '"' := (h c List.mem_cons_self).2.1
  have hbasic := basic_verbatim h r
  have hsingle : quoted (Quoted.basicLines false) Quoted.basic '"' (c :: w ++ '"' :: r) =
      (Quoted.basic (c :: w ++ '"' :: r)).map fun read =>
        (.string (String.ofList read.1), read.2) := by
    unfold quoted
    cases w <;> simp [hc]
  change quoted (Quoted.basicLines false) Quoted.basic '"' (c :: w ++ '"' :: r) = _
  rw [hsingle, hbasic]
  rfl

end Value

end DesignProcess.Toml
