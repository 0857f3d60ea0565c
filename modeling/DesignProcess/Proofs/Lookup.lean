namespace DesignProcess

variable {α β : Type} [BEq α] [LawfulBEq α]

theorem lookup_eq_none_iff_notMem {key : α} {entries : List (α × β)} :
    entries.lookup key = none ↔ key ∉ entries.map (·.1) := by
  rw [List.lookup_eq_none_iff]
  constructor
  · intro h hmem
    obtain ⟨e, he, rfl⟩ := List.mem_map.mp hmem
    simpa using h e he
  · intro h e he
    simp only [bne_iff_ne]
    rintro rfl
    exact h (List.mem_map_of_mem he)

theorem lookup_eq_some_of_mem {key : α} {v : β} {entries : List (α × β)}
    (hkeys : (entries.map (·.1)).Nodup) (h : (key, v) ∈ entries) :
    entries.lookup key = some v := by
  induction entries with
  | nil => cases h
  | cons e rest ih =>
    obtain ⟨k, w⟩ := e
    obtain ⟨hk, hrest⟩ := List.nodup_cons.mp hkeys
    rw [List.lookup_cons]
    rcases List.mem_cons.mp h with h | hmem
    · cases h
      simp
    · have hne : (key == k) = false := by
        rw [beq_eq_false_iff_ne]
        rintro rfl
        exact hk (List.mem_map.mpr ⟨_, hmem, rfl⟩)
      simp only [hne]
      exact ih hrest hmem

theorem lookup_eq_some_iff_mem {key : α} {v : β} {entries : List (α × β)}
    (hkeys : (entries.map (·.1)).Nodup) : entries.lookup key = some v ↔ (key, v) ∈ entries := by
  constructor
  · intro h
    obtain ⟨before, after, rfl, -⟩ := List.lookup_eq_some_iff.mp h
    simp
  · exact lookup_eq_some_of_mem hkeys

theorem any_key_iff_mem {key : α} {entries : List (α × β)} :
    entries.any (·.1 == key) = true ↔ key ∈ entries.map (·.1) := by
  rw [List.any_eq_true, List.mem_map]
  simp only [beq_iff_eq]

omit [BEq α] [LawfulBEq α] in
theorem nodup_snoc {e : α × β} {entries : List (α × β)} (hkeys : (entries.map (·.1)).Nodup)
    (hnew : e.1 ∉ entries.map (·.1)) : ((entries ++ [e]).map (·.1)).Nodup := by
  rw [List.map_append, List.nodup_append]
  refine ⟨hkeys, by simp, ?_⟩
  rintro key hkey _ hsingle rfl
  obtain rfl := List.mem_singleton.mp hsingle
  exact hnew hkey

end DesignProcess
