import DesignProcess.Dictionary
import DesignProcess.Proofs.Lookup

namespace DesignProcess.Dictionary

variable {α : Type} {d e : Dictionary α} {name : String} {value : α}

theorem place_perm (value : α) {l : List (String × α)} (h : name ∉ l.map (·.1)) :
    (place name value l).Perm ((name, value) :: l) := by
  induction l with
  | nil => exact .refl _
  | cons head rest ih =>
    obtain ⟨hhead, hrest⟩ := not_or.mp (fun hmem => h (List.mem_cons.mpr hmem))
    simp only [place]
    split
    · exact .refl _
    · have hplace := ih hrest
      exact (hplace.cons head).trans (.swap _ _ _)

theorem nodup_names (d : Dictionary α) : (d.entries.map (·.1)).Nodup := by
  rw [List.Nodup, List.pairwise_map]
  apply d.increasing.imp
  intro a b hlt heq
  rw [heq] at hlt
  exact String.lt_irrefl _ hlt

theorem nodup_entries (d : Dictionary α) : d.entries.Nodup := by
  apply d.increasing.imp
  rintro a _ hlt rfl
  exact String.lt_irrefl _ hlt

theorem get?_eq_none_iff : d.get? name = none ↔ name ∉ d.entries.map (·.1) :=
  lookup_eq_none_iff_notMem

theorem get?_eq_some_iff : d.get? name = some value ↔ (name, value) ∈ d.entries :=
  lookup_eq_some_iff_mem d.nodup_names

theorem contains_insert (d : Dictionary α) (name k : String) (value : α) :
    (d.insert name value).contains k = true ↔ k = name ∨ d.contains k = true := by
  unfold contains
  rw [get?_insert]
  by_cases h : k = name
  · simp [h]
  · simp [h]

theorem contains_empty (k : String) : (empty : Dictionary α).contains k = false := rfl

theorem contains_iff : d.contains name = true ↔ name ∈ d.names := by
  have hnone : d.get? name = none ↔ name ∉ d.names := get?_eq_none_iff
  rw [contains, ← Option.ne_none_iff_isSome, ne_eq, hnone, Decidable.not_not]

theorem names_increasing (d : Dictionary α) : d.names.Pairwise (· < ·) :=
  List.pairwise_map.mpr d.increasing

theorem names_eq {β : Type} {d : Dictionary α} {e : Dictionary β}
    (h : ∀ name, d.contains name = true ↔ e.contains name = true) : d.names = e.names := by
  have hmem (name : String) : name ∈ d.names ↔ name ∈ e.names := by
    rw [← contains_iff, ← contains_iff, h]
  have hperm : d.names.Perm e.names :=
    (List.perm_ext_iff_of_nodup d.nodup_names e.nodup_names).mpr hmem
  apply hperm.eq_of_pairwise _ d.names_increasing e.names_increasing
  intro a b _ _ hab hba
  exact absurd hba (String.lt_asymm hab)

theorem eq_of_perm (h : d.entries.Perm e.entries) : d = e := by
  obtain ⟨xs, hxs⟩ := d
  obtain ⟨ys, hys⟩ := e
  have heq : xs = ys := by
    apply h.eq_of_pairwise _ hxs hys
    intro a b _ _ hab hba
    exact absurd hba (String.lt_asymm hab)
  subst heq
  rfl

theorem eq_of_get? (h : ∀ name, d.get? name = e.get? name) : d = e := by
  apply eq_of_perm
  rw [List.perm_ext_iff_of_nodup d.nodup_entries e.nodup_entries]
  rintro ⟨name, value⟩
  rw [← get?_eq_some_iff, ← get?_eq_some_iff, h]

theorem get?_foldl_insert {l : List (String × α)} (hl : (l.map (·.1)).Nodup) (d : Dictionary α)
    (k : String) :
    (l.foldl (fun d (name, value) => d.insert name value) d).get? k =
      (l.lookup k).or (d.get? k) := by
  induction l generalizing d with
  | nil => rfl
  | cons head rest ih =>
    obtain ⟨name, value⟩ := head
    obtain ⟨hname, hrest⟩ := List.nodup_cons.mp hl
    rw [List.foldl_cons, ih hrest, get?_insert, lookup_entry]
    by_cases hk : k = name
    · have hnone : rest.lookup k = none := lookup_eq_none_iff_notMem.mpr (hk ▸ hname)
      simp [hk, hk ▸ hnone]
    · simp [hk]

theorem get?_extend (d e : Dictionary α) (k : String) :
    (d.extend e).get? k = (e.get? k).or (d.get? k) :=
  get?_foldl_insert e.nodup_names d k

theorem extend_empty (d : Dictionary α) : d.extend empty = d := rfl

theorem empty_extend (d : Dictionary α) : empty.extend d = d := by
  apply eq_of_get?
  intro k
  rw [get?_extend, get?_empty, Option.or_none]

theorem extend_assoc (d e f : Dictionary α) : (d.extend e).extend f = d.extend (e.extend f) := by
  apply eq_of_get?
  intro k
  simp only [get?_extend, Option.or_assoc]

theorem extend_insert (d e : Dictionary α) (name : String) (value : α) :
    (d.extend e).insert name value = d.extend (e.insert name value) := by
  apply eq_of_get?
  intro k
  simp only [get?_extend, get?_insert]
  split <;> rfl

end DesignProcess.Dictionary
