import DesignProcess.Discovery
import DesignProcess.Proofs.Dictionary
import DesignProcess.Proofs.Outcome

namespace DesignProcess

namespace Registry

variable {r r' r'' : Registry} {found more : List (Path × ComponentType)}

def entryOf (d : Path × ComponentType) : String × Registration :=
  (d.2.identifier, ⟨d.2.identifier, .declared d.2, .discovered d.1⟩)

structure Admits (r : Registry) (found : List (Path × ComponentType)) : Prop where
  distinct : (found.map (·.2.identifier)).Nodup
  fresh : ∀ d ∈ found, r.get? d.2.identifier = none

def Gains (r r' : Registry) (found : List (Path × ComponentType)) : Prop :=
  r'.registrations.entries.Perm (r.registrations.entries ++ found.map entryOf)

theorem Admits.perm (h : r.Admits found) (hperm : found.Perm more) : r.Admits more where
  distinct := (hperm.map _).nodup_iff.mp h.distinct
  fresh := fun d hd => h.fresh d (hperm.mem_iff.mpr hd)

theorem Gains.perm (h : r.Gains r' found) (hperm : found.Perm more) : r.Gains r' more :=
  h.trans ((hperm.map entryOf).append_left _)

theorem admits_nil (r : Registry) : r.Admits [] := ⟨List.nodup_nil, fun _ h => nomatch h⟩

theorem gains_nil (r : Registry) : r.Gains r [] := by
  rw [Gains, List.map_nil, List.append_nil]

theorem Gains.append (h : r.Gains r' found) (hmore : r'.Gains r'' more) :
    r.Gains r'' (found ++ more) := by
  rw [Gains, List.map_append, ← List.append_assoc]
  exact hmore.trans (h.append_right _)

theorem Gains.get?_eq_some_iff (h : r.Gains r' found) {id : String} {reg : Registration} :
    r'.get? id = some reg ↔
      r.get? id = some reg ∨ ∃ d ∈ found, entryOf d = (id, reg) := by
  simp only [get?, Dictionary.get?_eq_some_iff]
  rw [h.mem_iff, List.mem_append, List.mem_map]

theorem Gains.get?_eq_none_iff (h : r.Gains r' found) {id : String} :
    r'.get? id = none ↔ r.get? id = none ∧ id ∉ found.map (·.2.identifier) := by
  have hnames : (found.map entryOf).map (·.1) = found.map (·.2.identifier) := by
    rw [List.map_map]
    rfl
  simp only [get?, Dictionary.get?_eq_none_iff]
  rw [(h.map _).mem_iff, List.map_append, List.mem_append, not_or, hnames]

theorem Gains.admits_append_iff (h : r.Gains r' found) :
    r.Admits (found ++ more) ↔ r.Admits found ∧ r'.Admits more := by
  constructor
  · rintro ⟨hdistinct, hfresh⟩
    rw [List.map_append, List.nodup_append] at hdistinct
    obtain ⟨hfound, hmore, hapart⟩ := hdistinct
    refine ⟨⟨hfound, fun d hd => hfresh d (List.mem_append_left _ hd)⟩, hmore, ?_⟩
    intro d hd
    rw [h.get?_eq_none_iff]
    refine ⟨hfresh d (List.mem_append_right _ hd), ?_⟩
    intro hmem
    exact hapart _ hmem _ (List.mem_map_of_mem hd) rfl
  · rintro ⟨⟨hfound, hfresh⟩, hmore, hfresh'⟩
    have hnew := fun d hd => h.get?_eq_none_iff.mp (hfresh' d hd)
    constructor
    · rw [List.map_append, List.nodup_append]
      refine ⟨hfound, hmore, ?_⟩
      rintro id hid _ hid' rfl
      obtain ⟨d, hd, rfl⟩ := List.mem_map.mp hid'
      exact (hnew d hd).2 hid
    · intro d hd
      rcases List.mem_append.mp hd with hd | hd
      · exact hfresh d hd
      · exact (hnew d hd).1

theorem register_eq_ok_iff {id : String} {factory : Factory} {origin : Origin} :
    r.register id factory origin = .ok r' ↔
      r.get? id = none ∧ r' = ⟨r.registrations.insert id ⟨id, factory, origin⟩⟩ := by
  unfold register
  cases hget : r.get? id with
  | some present => simp
  | none => simp [eq_comm]

theorem gains_insert {p : Path} {t : ComponentType} (h : r.get? t.identifier = none) :
    r.Gains ⟨r.registrations.insert t.identifier ⟨t.identifier, .declared t, .discovered p⟩⟩
      [(p, t)] := by
  have hplace := Dictionary.place_perm ⟨t.identifier, .declared t, .discovered p⟩
    (Dictionary.get?_eq_none_iff.mp h)
  exact hplace.trans (List.perm_append_singleton _ _).symm

theorem registerAll_sound (h : r.registerAll found = .ok r') :
    r.Admits found ∧ r.Gains r' found := by
  unfold registerAll at h
  induction found generalizing r with
  | nil =>
    cases h
    exact ⟨admits_nil _, gains_nil _⟩
  | cons d rest ih =>
    rw [List.foldlM_cons, Except.bind_eq_ok_iff] at h
    obtain ⟨middle, hd, hrest⟩ := h
    obtain ⟨hnew, rfl⟩ := register_eq_ok_iff.mp hd
    have hgains := gains_insert (p := d.1) hnew
    have hone : r.Admits [d] := ⟨by simp, by simpa using hnew⟩
    obtain ⟨hadmits, hmore⟩ := ih hrest
    exact ⟨hgains.admits_append_iff.mpr ⟨hone, hadmits⟩, hgains.append hmore⟩

theorem registerAll_complete (h : r.Admits found) : ∃ r', r.registerAll found = .ok r' := by
  unfold registerAll
  induction found generalizing r with
  | nil => exact ⟨r, rfl⟩
  | cons d rest ih =>
    have hnew := h.fresh d List.mem_cons_self
    have hgains := gains_insert (p := d.1) hnew
    obtain ⟨-, hadmits⟩ := hgains.admits_append_iff.mp (show r.Admits ([d] ++ rest) from h)
    obtain ⟨r', hr'⟩ := ih hadmits
    refine ⟨r', ?_⟩
    rw [List.foldlM_cons, Except.bind_eq_ok_iff]
    exact ⟨_, register_eq_ok_iff.mpr ⟨hnew, rfl⟩, hr'⟩

end Registry

end DesignProcess
