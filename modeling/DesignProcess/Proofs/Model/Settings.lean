import DesignProcess.Model.Building
import DesignProcess.Proofs.Outcome

namespace DesignProcess

inductive Component.Absorbs : Component → List (String × Scalar) → Component → Prop
  | nil (c : Component) : Absorbs c [] c
  | cons {c d e : Component} {name : String} {v : Scalar} {rest : List (String × Scalar)}
      (head : c.set name v = .ok d) (tail : Absorbs d rest e) : Absorbs c ((name, v) :: rest) e

theorem Component.setSlot_error {name : String} {v : Scalar} {slots : List OptionSlot}
    {fault : OptionFault} (h : setSlot name v slots = .error fault) :
    fault = .unsupported name ∨ ∃ reason, fault = .invalid name reason := by
  induction slots with
  | nil => exact .inl (Except.error.inj h).symm
  | cons slot rest ih =>
    simp only [setSlot] at h
    split at h
    · split at h
      · cases h
      · rename_i reason _
        exact .inr ⟨reason, (Except.error.inj h).symm⟩
    · exact ih (Except.map_eq_error_iff.mp h)

theorem Component.set_error {c : Component} {name : String} {v : Scalar} {fault : OptionFault}
    (h : c.set name v = .error fault) :
    fault = .unsupported name ∨ ∃ reason, fault = .invalid name reason :=
  setSlot_error (Except.map_eq_error_iff.mp h)

namespace Model

theorem configure_eq_ok_iff {id : String} {path : KeyPath} {c d : Component}
    {settings : List (String × Scalar)} :
    configure id path c settings = .ok d ↔ c.Absorbs settings d := by
  induction settings generalizing c with
  | nil =>
    constructor
    · intro h
      exact Except.ok.inj h ▸ .nil c
    · rintro ⟨⟩
      rfl
  | cons setting rest ih =>
    obtain ⟨name, v⟩ := setting
    simp only [configure]
    cases hset : c.set name v with
    | ok next =>
      rw [ih]
      constructor
      · exact .cons hset
      · intro h
        cases h with
        | cons head tail => exact Except.ok.inj (hset.symm.trans head) ▸ tail
    | error fault =>
      constructor
      · intro h
        cases h
      · intro h
        cases h with
        | cons head tail => cases hset.symm.trans head

theorem configure_eq_error_iff {id : String} {path : KeyPath} {c : Component}
    {settings : List (String × Scalar)} {e : AssemblyError} :
    configure id path c settings = .error e ↔
      ∃ before name v after d fault, settings = before ++ (name, v) :: after ∧
        c.Absorbs before d ∧ d.set name v = .error fault ∧ e = optionError id path name fault := by
  induction settings generalizing c with
  | nil => simp [configure]
  | cons setting rest ih =>
    obtain ⟨name, v⟩ := setting
    simp only [configure]
    constructor
    · intro h
      cases hset : c.set name v with
      | ok next =>
        rw [hset] at h
        obtain ⟨before, name', v', after, d, fault, rfl, habs, hd, he⟩ := ih.mp h
        exact ⟨(name, v) :: before, name', v', after, d, fault, rfl, .cons hset habs, hd, he⟩
      | error fault =>
        rw [hset] at h
        exact ⟨[], name, v, rest, c, fault, rfl, .nil c, hset, (Except.error.inj h).symm⟩
    · rintro ⟨before, name', v', after, d, fault, hsplit, habs, hd, he⟩
      cases habs with
      | nil =>
        obtain ⟨hhead, rfl⟩ := List.cons.inj hsplit
        obtain ⟨rfl, rfl⟩ := Prod.mk.inj hhead
        rw [hd, he]
      | cons head tail =>
        obtain ⟨hhead, rfl⟩ := List.cons.inj hsplit
        obtain ⟨rfl, rfl⟩ := Prod.mk.inj hhead
        rw [head]
        exact ih.mpr ⟨_, name', v', after, d, fault, rfl, tail, hd, he⟩

end Model

end DesignProcess
