import DesignProcess.Component.Option
import DesignProcess.Proofs.Outcome

namespace DesignProcess

def OptionKind.widen : OptionKind → Scalar → Scalar
  | .float, .integer n => .float (Float.ofInt n.toInt)
  | _, v => v

namespace OptionRule

structure AdmitsNumber (r : OptionRule) (x : Float) : Prop where
  finite : x.isFinite = true
  above : ∀ l ∈ r.lower, ¬x < l
  below : ∀ u ∈ r.upper, ¬u < x

def Admits (r : OptionRule) : Scalar → Prop
  | .boolean _ => r.kind = .boolean
  | .integer n => r.kind = .integer ∧ r.AdmitsNumber (Float.ofInt n.toInt)
  | .float x => r.kind = .float ∧ r.AdmitsNumber x
  | .string s => r.kind = .string ∧ (r.allowed = [] ∨ s ∈ r.allowed)

instance (r : OptionRule) (x : Float) : Decidable (r.AdmitsNumber x) :=
  decidable_of_iff (x.isFinite = true ∧ (∀ l ∈ r.lower, ¬x < l) ∧ ∀ u ∈ r.upper, ¬u < x)
    ⟨fun ⟨hfinite, habove, hbelow⟩ => ⟨hfinite, habove, hbelow⟩,
      fun h => ⟨h.finite, h.above, h.below⟩⟩

instance (r : OptionRule) : DecidablePred r.Admits
  | .boolean _ => inferInstanceAs (Decidable (r.kind = .boolean))
  | .integer n =>
    inferInstanceAs (Decidable (r.kind = .integer ∧ r.AdmitsNumber (Float.ofInt n.toInt)))
  | .float x => inferInstanceAs (Decidable (r.kind = .float ∧ r.AdmitsNumber x))
  | .string s => inferInstanceAs (Decidable (r.kind = .string ∧ (r.allowed = [] ∨ s ∈ r.allowed)))

variable {r : OptionRule} {v stored : Scalar}

theorem checkNumber_eq_ok_iff {x : Float} : r.checkNumber x = .ok () ↔ r.AdmitsNumber x := by
  unfold checkNumber
  constructor
  · intro h
    split at h
    · cases h
    · rename_i hfinite
      split at h
      · cases h
      · cases h
      · rename_i hlower hupper
        refine ⟨by simpa using hfinite, ?_, ?_⟩
        · intro l hl
          simpa using Option.filter_eq_none_iff.mp hlower l hl
        · intro u hu
          simpa using Option.filter_eq_none_iff.mp hupper u hu
  · rintro ⟨hfinite, habove, hbelow⟩
    have hlower : r.lower.filter (x < ·) = none :=
      Option.filter_eq_none_iff.mpr fun l hl => by simpa using habove l hl
    have hupper : r.upper.filter (· < x) = none :=
      Option.filter_eq_none_iff.mpr fun u hu => by simpa using hbelow u hu
    simp [hfinite, hlower, hupper]

theorem checkString_eq_ok_iff {s : String} :
    r.checkString s = .ok () ↔ r.allowed = [] ∨ s ∈ r.allowed := by
  unfold checkString
  simp [Decidable.or_iff_not_imp_left]

theorem check_eq_ok_iff :
    r.check v = .ok stored ↔ fit r.kind v = .ok stored ∧ r.checkStored stored = .ok () := by
  unfold check
  rw [Except.bind_eq_ok_iff]
  constructor
  · rintro ⟨s, hfit, h⟩
    obtain ⟨_, hstored, h⟩ := Except.bind_eq_ok_iff.mp h
    cases h
    exact ⟨hfit, hstored⟩
  · rintro ⟨hfit, hstored⟩
    exact ⟨stored, hfit, Except.bind_eq_ok_iff.mpr ⟨(), hstored, rfl⟩⟩

theorem admits_iff : r.Admits v ↔ fit r.kind v = .ok v ∧ r.checkStored v = .ok () := by
  cases v with
  | boolean b => cases hkind : r.kind <;> simp [Admits, fit, checkStored, hkind]
  | integer n =>
    rw [Admits, checkStored, checkNumber_eq_ok_iff]
    cases hkind : r.kind <;> simp [fit]
  | float x =>
    rw [Admits, checkStored, checkNumber_eq_ok_iff]
    cases hkind : r.kind <;> simp [fit]
  | string s =>
    rw [Admits, checkStored, checkString_eq_ok_iff]
    cases hkind : r.kind <;> simp [fit]

theorem check_eq_self_iff : r.check v = .ok v ↔ r.Admits v := check_eq_ok_iff.trans admits_iff.symm

theorem fit_eq_ok_iff {kind : OptionKind} :
    fit kind v = .ok stored ↔
      fit kind (kind.widen v) = .ok (kind.widen v) ∧ stored = kind.widen v := by
  cases kind <;> cases v <;> simp [fit, OptionKind.widen, eq_comm]

theorem check_eq_ok_iff_admits :
    r.check v = .ok stored ↔ r.Admits (r.kind.widen v) ∧ stored = r.kind.widen v := by
  rw [check_eq_ok_iff, fit_eq_ok_iff, admits_iff]
  constructor
  · rintro ⟨⟨hfit, rfl⟩, hstored⟩
    exact ⟨⟨hfit, hstored⟩, rfl⟩
  · rintro ⟨⟨hfit, hstored⟩, rfl⟩
    exact ⟨⟨hfit, rfl⟩, hstored⟩

theorem admits_of_check (h : r.check v = .ok stored) : r.Admits stored := by
  obtain ⟨hadmits, rfl⟩ := check_eq_ok_iff_admits.mp h
  exact hadmits

theorem toFloat?_widen (kind : OptionKind) (v : Scalar) : (kind.widen v).toFloat? = v.toFloat? := by
  cases kind <;> cases v <;> rfl

theorem Admits.number {x : Float} (h : r.Admits v) (hx : v.toFloat? = some x) :
    r.AdmitsNumber x := by
  cases v with
  | boolean b => cases hx
  | integer n =>
    cases hx
    exact h.2
  | float y =>
    cases hx
    exact h.2
  | string s => cases hx

theorem number_of_check {x : Float} (h : r.check v = .ok stored) (hx : v.toFloat? = some x) :
    r.AdmitsNumber x :=
  (check_eq_ok_iff_admits.mp h).1.number ((toFloat?_widen r.kind v).trans hx)

end OptionRule

end DesignProcess
