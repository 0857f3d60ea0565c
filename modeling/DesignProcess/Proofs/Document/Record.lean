import DesignProcess.Proofs.Lookup
import DesignProcess.Proofs.Outcome
import DesignProcess.Value.Basic

namespace DesignProcess.Record

variable {σ ε φ β : Type}

theorem foldlM_eq_ok_iff {step : σ → ε → Except φ σ} {set : σ → ε → σ} {Admits : ε → Prop}
    {entries : List ε} {s t : σ}
    (hstep : ∀ e ∈ entries, ∀ s t, step s e = .ok t ↔ Admits e ∧ t = set s e) :
    entries.foldlM step s = .ok t ↔ (∀ e ∈ entries, Admits e) ∧ t = entries.foldl set s := by
  induction entries generalizing s with
  | nil => simp [pure, Except.pure, eq_comm]
  | cons e rest ih =>
    have hrest := fun e' he' => hstep e' (List.mem_cons_of_mem e he')
    rw [List.foldlM_cons, Except.bind_eq_ok_iff]
    constructor
    · rintro ⟨u, hu, h⟩
      obtain ⟨he, rfl⟩ := (hstep e List.mem_cons_self s u).mp hu
      obtain ⟨hall, rfl⟩ := (ih hrest).mp h
      exact ⟨List.forall_mem_cons.mpr ⟨he, hall⟩, rfl⟩
    · rintro ⟨hall, rfl⟩
      obtain ⟨he, hall⟩ := List.forall_mem_cons.mp hall
      exact ⟨set s e, (hstep e List.mem_cons_self s _).mpr ⟨he, rfl⟩, (ih hrest).mpr ⟨hall, rfl⟩⟩

theorem foldl_field {set : σ → String × Value → σ} (field : σ → β) (key : String)
    (read : Value → β) {entries : List (String × Value)} {s : σ}
    (hset : ∀ s k v, field (set s (k, v)) = if k = key then read v else field s)
    (hkeys : (entries.map (·.1)).Nodup) :
    field (entries.foldl set s) = ((entries.lookup key).map read).getD (field s) := by
  induction entries generalizing s with
  | nil => rfl
  | cons e rest ih =>
    obtain ⟨k, v⟩ := e
    obtain ⟨hk, hrest⟩ := List.nodup_cons.mp hkeys
    rw [List.foldl_cons, ih hrest, List.lookup_cons, hset]
    by_cases h : k = key
    · subst h
      rw [lookup_eq_none_iff_notMem.mpr hk]
      simp
    · have hne : (key == k) = false := by simpa using fun h' => h h'.symm
      simp [h, hne]

theorem foldl_optional {set : σ → String × Value → σ} (field : σ → Option β) (key : String)
    (read : Value → Option β) {entries : List (String × Value)} {s : σ} (hs : field s = none)
    (hset : ∀ s k v, field (set s (k, v)) = if k = key then read v else field s)
    (hkeys : (entries.map (·.1)).Nodup) :
    field (entries.foldl set s) = (entries.lookup key).bind read := by
  rw [foldl_field field key read hset hkeys, hs]
  cases entries.lookup key <;> rfl

theorem exists_of_foldlM_error {step : σ → ε → Except φ σ} {entries : List ε} {s : σ} {f : φ}
    (h : entries.foldlM step s = .error f) : ∃ e ∈ entries, ∃ t, step t e = .error f := by
  induction entries generalizing s with
  | nil => cases h
  | cons e rest ih =>
    rw [List.foldlM_cons, Except.bind_eq_error_iff] at h
    rcases h with he | ⟨t, -, hrest⟩
    · exact ⟨e, List.mem_cons_self, s, he⟩
    · obtain ⟨e', he', t', h⟩ := ih hrest
      exact ⟨e', List.mem_cons_of_mem e he', t', h⟩

theorem notMem_of_foldlM_unset {step : σ → String × Value → Except φ σ} (field : σ → Option β)
    (key : String)
    (hset : ∀ s e t, step s e = .ok t → field t = none → field s = none ∧ e.1 ≠ key)
    {entries : List (String × Value)} {s t : σ} (h : entries.foldlM step s = .ok t)
    (hunset : field t = none) : field s = none ∧ key ∉ entries.map (·.1) := by
  -- What the last entry leaves unset was unset before it, and so on back to the first one.
  induction entries generalizing s with
  | nil =>
    cases h
    exact ⟨hunset, List.not_mem_nil⟩
  | cons e rest ih =>
    rw [List.foldlM_cons, Except.bind_eq_ok_iff] at h
    obtain ⟨u, hu, hrest⟩ := h
    obtain ⟨hfield, hkeys⟩ := ih hrest
    obtain ⟨hs, hne⟩ := hset s e u hu hfield
    refine ⟨hs, ?_⟩
    rw [List.map_cons, List.mem_cons, not_or]
    exact ⟨fun h => hne h.symm, hkeys⟩

end DesignProcess.Record
