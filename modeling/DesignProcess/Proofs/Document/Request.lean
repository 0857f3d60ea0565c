import DesignProcess.Proofs.Document.Leaf
import DesignProcess.Proofs.Document.Record

namespace DesignProcess

namespace ComponentRequest

def IsRequestEntry (e : String × Value) : Prop :=
  if e.1 = "id" then ∃ s, e.2 = .scalar (.string s) else ∃ s, e.2 = .scalar s

def set (r : ComponentRequest) (e : String × Value) : ComponentRequest :=
  if e.1 = "id" then { r with id := e.2.text?.getD "" }
  else { r with options := r.options ++ (e.2.scalar?.map fun s => (e.1, s)).toList }

theorem extend_eq_ok_iff {path : KeyPath} {r t : ComponentRequest} {e : String × Value} :
    extend path r e = .ok t ↔ IsRequestEntry e ∧ t = r.set e := by
  unfold extend
  split
  · simp [IsRequestEntry, set, Value.text?, eq_comm]
  · rename_i v hstring
    constructor
    · intro h
      cases h
    · rintro ⟨h, -⟩
      obtain ⟨s, rfl⟩ : ∃ s, v = .scalar (.string s) := by simpa [IsRequestEntry] using h
      exact absurd rfl (hstring s)
  · rename_i k s _ hid
    have hk : k ≠ "id" := hid
    simp [IsRequestEntry, set, hk, Value.scalar?, eq_comm]
  · rename_i k v _ hid hscalar
    have hk : k ≠ "id" := hid
    constructor
    · intro h
      cases h
    · rintro ⟨h, -⟩
      obtain ⟨s, rfl⟩ : ∃ s, v = .scalar s := by simpa [IsRequestEntry, hk] using h
      exact absurd rfl (hscalar s)

theorem options_foldl {entries : List (String × Value)} {r : ComponentRequest} :
    (entries.foldl set r).options = r.options ++ (Value.request entries).options := by
  induction entries generalizing r with
  | nil => simp [Value.request]
  | cons e rest ih =>
    rw [List.foldl_cons, ih]
    by_cases h : e.1 = "id"
    · simp [set, Value.request, h]
    · cases hs : e.2.scalar? <;> simp [set, Value.request, h, hs]

attribute [ext] ComponentRequest

theorem foldl_eq_request {entries : List (String × Value)}
    (hkeys : (entries.map (·.1)).Nodup) : entries.foldl set ⟨"", []⟩ = Value.request entries := by
  apply ComponentRequest.ext
  · rw [Record.foldl_field ComponentRequest.id "id" (fun v => v.text?.getD "") ?_ hkeys]
    · cases h : entries.lookup "id" <;> simp [Value.request, Value.textAt, h]
    · intro r k v
      by_cases hk : k = "id" <;> simp [set, hk]
  · rw [options_foldl, List.nil_append]

theorem ofEntries_eq_ok_iff {path : KeyPath} {entries : List (String × Value)}
    {r : ComponentRequest} (hkeys : (entries.map (·.1)).Nodup) :
    ofEntries path entries = .ok r ↔
      (∀ e ∈ entries, IsRequestEntry e) ∧ r = Value.request entries := by
  rw [← foldl_eq_request hkeys]
  unfold ofEntries
  split
  · rename_i child v hfind
    constructor
    · intro h
      cases h
    · rintro ⟨hall, -⟩
      -- A table among the entries is neither an identifier nor an option.
      have hmem := hall _ (List.mem_of_find?_eq_some hfind)
      have htable := List.find?_some hfind
      unfold IsRequestEntry at hmem
      split at hmem
      all_goals
        obtain ⟨s, rfl⟩ := hmem
        cases htable
  · exact Record.foldlM_eq_ok_iff fun e _ s t => extend_eq_ok_iff

end ComponentRequest

namespace Value

theorem isNode_iff_of_id {entries : List (String × Value)} {v : Value}
    (hkeys : (entries.map (·.1)).Nodup) (hid : entries.lookup "id" = some v) :
    IsNode (.table entries) ↔ ∀ e ∈ entries, ComponentRequest.IsRequestEntry e := by
  constructor
  · intro h
    cases h with
    | component identified options =>
      intro e he
      unfold ComponentRequest.IsRequestEntry
      split
      · rename_i hkey
        have hlookup := lookup_eq_some_of_mem hkeys (show ("id", e.2) ∈ entries from hkey ▸ he)
        rw [lookup_eq_some_of_mem hkeys identified] at hlookup
        exact ⟨_, (Option.some.inj hlookup).symm⟩
      · rename_i hkey
        exact options e he hkey
    | group anonymous solvers names children =>
      obtain ⟨before, after, rfl, -⟩ := List.lookup_eq_some_iff.mp hid
      exact absurd rfl (anonymous ("id", v) (by simp))
  · intro h
    obtain ⟨before, after, rfl, -⟩ := List.lookup_eq_some_iff.mp hid
    have hmem : ("id", v) ∈ before ++ ("id", v) :: after := by simp
    obtain ⟨id, rfl⟩ : ∃ id, v = .scalar (.string id) := h _ hmem
    refine .component hmem fun e he hne => ?_
    have hoption := h e he
    simpa [ComponentRequest.IsRequestEntry, hne] using hoption

end Value

end DesignProcess
