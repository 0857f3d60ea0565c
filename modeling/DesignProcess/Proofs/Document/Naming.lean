import DesignProcess.Proofs.Document.Node
import DesignProcess.Proofs.Text.Dotted

namespace DesignProcess

namespace ModelSpec

inductive WellNamed : ModelSpec → Prop
  | component (request : ComponentRequest) : WellNamed (.component request)
  | group {texts : SolverTexts} {children : List (String × ModelSpec)}
      (distinct : (children.map (·.1)).Nodup)
      (names : ∀ e ∈ children, Text.IsName e.1)
      (each : ∀ e ∈ children, WellNamed e.2) : WellNamed (.group texts children)

theorem WellNamed.with_solvers {texts texts' : SolverTexts} {children : List (String × ModelSpec)}
    (h : (ModelSpec.group texts children).WellNamed) :
    (ModelSpec.group texts' children).WellNamed := by
  cases h with
  | group distinct names each => exact .group distinct names each

theorem WellNamed.with_child {texts : SolverTexts} {children : List (String × ModelSpec)}
    {name : String} {child : ModelSpec} (h : (ModelSpec.group texts children).WellNamed)
    (hchild : child.WellNamed) (hname : Text.IsName name)
    (hnew : name ∉ children.map (·.1)) :
    (ModelSpec.group texts (children ++ [(name, child)])).WellNamed := by
  cases h with
  | group distinct names each =>
    apply WellNamed.group (nodup_snoc distinct hnew)
    · exact List.forall_mem_append.mpr ⟨names, List.forall_mem_singleton.mpr hname⟩
    · exact List.forall_mem_append.mpr ⟨each, List.forall_mem_singleton.mpr hchild⟩

mutual

theorem wellNamed_of_ofValue {path : KeyPath} {v : Value} {spec : ModelSpec}
    (h : ofValue path v = .ok spec) : spec.WellNamed := by
  cases v with
  | null => cases h
  | scalar s => cases h
  | list items => cases h
  | table entries =>
    simp only [ofValue] at h
    split at h
    · obtain ⟨request, -, rfl⟩ := Except.map_eq_ok_iff.mp h
      exact .component request
    · have hempty : (ModelSpec.group ⟨none, none⟩ []).WellNamed :=
        .group List.nodup_nil (List.forall_mem_nil _) (List.forall_mem_nil _)
      exact wellNamed_of_groupOfEntries hempty h

/-- The children that a group has so far are the invariant. -/
theorem wellNamed_of_groupOfEntries {path : KeyPath} {texts : SolverTexts}
    {done : List (String × ModelSpec)} {entries : List (String × Value)} {spec : ModelSpec}
    (hdone : (ModelSpec.group texts done).WellNamed)
    (h : groupOfEntries path texts done entries = .ok spec) : spec.WellNamed := by
  cases entries with
  | nil =>
    cases h
    exact hdone
  | cons e rest =>
    obtain ⟨k, v⟩ := e
    by_cases hk : Value.IsSolverKey k
    · obtain ⟨-, h⟩ := (groupOfEntries_solver hk).mp h
      exact wellNamed_of_groupOfEntries hdone.with_solvers h
    · have hnew : k ∉ done.map (·.1) := by
        rw [← any_key_iff_mem]
        intro hmem
        simp only [Value.IsSolverKey, not_or] at hk
        simp only [groupOfEntries, hk, hmem, if_true, if_false] at h
        split at h
        · cases h
        · split at h <;> cases h
      obtain ⟨-, hname, child, hchild, h⟩ := (groupOfEntries_child hk hnew).mp h
      have hnamed : child.WellNamed := wellNamed_of_ofValue hchild
      exact wellNamed_of_groupOfEntries (hdone.with_child hnamed hname hnew) h

end

end ModelSpec

namespace Document

theorem Draft.extend_wellNamed {d t : Draft} {e : String × Value}
    (hd : ∀ m, d.model = some m → m.WellNamed) (h : d.extend e = .ok t) :
    ∀ m, t.model = some m → m.WellNamed := by
  obtain ⟨k, v⟩ := e
  simp only [Draft.extend] at h
  split at h
  case h_6 =>
    obtain ⟨m, hm, rfl⟩ := Except.map_eq_ok_iff.mp h
    intro m' heq
    cases heq
    exact ModelSpec.wellNamed_of_ofValue hm
  case h_8 => cases h
  all_goals
    obtain ⟨x, -, rfl⟩ := Except.map_eq_ok_iff.mp h
    exact hd

theorem foldlM_extend_wellNamed {entries : List (String × Value)} {d t : Draft}
    (hd : ∀ m, d.model = some m → m.WellNamed) (h : entries.foldlM Draft.extend d = .ok t) :
    ∀ m, t.model = some m → m.WellNamed := by
  induction entries generalizing d with
  | nil =>
    cases h
    exact hd
  | cons e rest ih =>
    rw [List.foldlM_cons, Except.bind_eq_ok_iff] at h
    obtain ⟨middle, he, hrest⟩ := h
    exact ih (Draft.extend_wellNamed hd he) hrest

theorem model_wellNamed {v : Value} {d : Document} (h : ofValue v = .ok d) :
    d.model.WellNamed := by
  cases v with
  | null => cases h
  | scalar s => cases h
  | list items => cases h
  | table entries =>
    obtain ⟨t, ht, hdocument⟩ := Except.bind_eq_ok_iff.mp h
    have hempty : ∀ m, Draft.empty.model = some m → m.WellNamed := fun m hm => nomatch hm
    unfold Draft.document at hdocument
    split at hdocument
    · cases hdocument
    · rename_i m hm
      cases hdocument
      exact foldlM_extend_wellNamed hempty ht m hm

end Document

end DesignProcess
