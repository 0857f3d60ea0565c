import DesignProcess.Proofs.Document.Leaf
import DesignProcess.Proofs.Document.Record

namespace DesignProcess

namespace VariableEntry

theorem nameOf_eq_ok_iff {path : KeyPath} {v : Value} {s : String} :
    nameOf path v = .ok s ↔ v = .scalar (.string s) := by
  unfold nameOf
  split
  · simp
  · rename_i hstring
    constructor
    · intro h
      cases h
    · rintro rfl
      exact absurd rfl (hstring s)

def Draft.set (d : Draft) (f : String × Value) : Draft :=
  if f.1 = "name" then { d with name := f.2.text? }
  else if f.1 = "lower" then { d with lower := f.2.float? }
  else if f.1 = "upper" then { d with upper := f.2.float? }
  else if f.1 = "scaler" then { d with scaler := f.2.float? }
  else if f.1 = "units" then { d with units := f.2.text? }
  else d

theorem Draft.extend_eq_ok_iff {path : KeyPath} {d t : Draft} {f : String × Value} :
    d.extend path f = .ok t ↔ Value.IsEntryField f ∧ t = d.set f := by
  obtain ⟨k, v⟩ := f
  simp only [extend]
  split
  · rw [Except.map_eq_ok_iff]
    constructor
    · rintro ⟨s, hs, rfl⟩
      obtain rfl := nameOf_eq_ok_iff.mp hs
      exact ⟨.inl ⟨rfl, s, rfl⟩, rfl⟩
    · rintro ⟨h, rfl⟩
      obtain ⟨s, rfl⟩ : ∃ s, v = .scalar (.string s) := by simpa [Value.IsEntryField] using h
      exact ⟨s, rfl, rfl⟩
  · rw [Except.map_eq_ok_iff_of fun x => Value.number?_eq_ok_iff]
    simp [Value.IsEntryField, set]
  · rw [Except.map_eq_ok_iff_of fun x => Value.number?_eq_ok_iff]
    simp [Value.IsEntryField, set]
  · rw [Except.map_eq_ok_iff_of fun x => Value.number?_eq_ok_iff]
    simp [Value.IsEntryField, set]
  · rw [Except.map_eq_ok_iff_of fun s => Value.string?_eq_ok_iff]
    simp [Value.IsEntryField, set]
  · rename_i hname hlower hupper hscaler hunits
    have hentry : ¬Value.IsEntryField (k, v) := by
      simp only [Value.IsEntryField, List.mem_cons, List.not_mem_nil, or_false]
      rintro (⟨rfl, -⟩ | ⟨rfl | rfl | rfl, -⟩ | ⟨rfl, -⟩) <;> contradiction
    simp [hentry]

attribute [ext] Draft

theorem foldl_set {fields : List (String × Value)} (hkeys : (fields.map (·.1)).Nodup) :
    fields.foldl Draft.set .empty =
      ⟨Value.textAt fields "name", Value.floatAt fields "lower", Value.floatAt fields "upper",
        Value.textAt fields "units", Value.floatAt fields "scaler"⟩ := by
  apply Draft.ext
  · exact Record.foldl_optional Draft.name "name" Value.text? rfl (by grind [Draft.set]) hkeys
  · exact Record.foldl_optional Draft.lower "lower" Value.float? rfl (by grind [Draft.set]) hkeys
  · exact Record.foldl_optional Draft.upper "upper" Value.float? rfl (by grind [Draft.set]) hkeys
  · exact Record.foldl_optional Draft.units "units" Value.text? rfl (by grind [Draft.set]) hkeys
  · exact Record.foldl_optional Draft.scaler "scaler" Value.float? rfl (by grind [Draft.set]) hkeys

theorem Draft.entry_eq_ok_iff {path : KeyPath} {d : Draft} {e : VariableEntry} :
    d.entry path = .ok e ↔
      ∃ name, d.name = some name ∧ e = ⟨name, d.lower, d.upper, d.units, d.scaler⟩ := by
  unfold entry
  cases d.name with
  | none => simp
  | some name => simp [eq_comm]

theorem textAt_name_isSome_iff {fields : List (String × Value)} (hkeys : (fields.map (·.1)).Nodup)
    (hall : ∀ f ∈ fields, Value.IsEntryField f) :
    (∃ name, Value.textAt fields "name" = some name) ↔ ∃ w, ("name", w) ∈ fields := by
  constructor
  · rintro ⟨name, hname⟩
    obtain ⟨w, hw, -⟩ := Option.bind_eq_some_iff.mp hname
    obtain ⟨before, after, rfl, -⟩ := List.lookup_eq_some_iff.mp hw
    exact ⟨w, by simp⟩
  · rintro ⟨w, hw⟩
    obtain ⟨s, rfl⟩ : ∃ s, w = .scalar (.string s) := by
      simpa [Value.IsEntryField] using hall _ hw
    exact ⟨s, by rw [Value.textAt, lookup_eq_some_of_mem hkeys hw]; rfl⟩

theorem ofValue_eq_ok_iff {path : KeyPath} {v : Value} {e : VariableEntry} (h : v.DistinctKeys) :
    ofValue path v = .ok e ↔ v.IsEntry ∧ e = v.entry := by
  cases h with
  | null => simp [ofValue, Value.IsEntry]
  | scalar s => simp [ofValue, Value.IsEntry]
  | list each => simp [ofValue, Value.IsEntry]
  | @table fields keys each =>
    have hfold {d : Draft} : fields.foldlM (Draft.extend path) .empty = .ok d ↔
        (∀ f ∈ fields, Value.IsEntryField f) ∧ d = fields.foldl Draft.set .empty :=
      Record.foldlM_eq_ok_iff fun f _ s t => Draft.extend_eq_ok_iff
    simp only [ofValue, Except.bind_eq_ok_iff, hfold, foldl_set keys, Draft.entry_eq_ok_iff]
    constructor
    · rintro ⟨d, ⟨hall, rfl⟩, name, hname, rfl⟩
      refine ⟨⟨fields, rfl, hall, (textAt_name_isSome_iff keys hall).mp ⟨name, hname⟩⟩, ?_⟩
      simp only at hname
      simp [Value.entry, Value.variableEntry, hname]
    · rintro ⟨⟨fields', heq, hall, hmem⟩, rfl⟩
      obtain rfl := Value.table.inj heq
      obtain ⟨name, hname⟩ := (textAt_name_isSome_iff keys hall).mpr hmem
      refine ⟨_, ⟨hall, rfl⟩, name, hname, ?_⟩
      simp [Value.entry, Value.variableEntry, hname]

theorem listFrom_eq_ok_iff {path : KeyPath} {i : Nat} {items : List Value}
    {es : List VariableEntry} (h : ∀ item ∈ items, item.DistinctKeys) :
    listFrom path i items = .ok es ↔
      (∀ item ∈ items, item.IsEntry) ∧ es = items.map Value.entry := by
  induction items generalizing i es with
  | nil => simp [listFrom, eq_comm]
  | cons item rest ih =>
    obtain ⟨hitem, hrest⟩ := List.forall_mem_cons.mp h
    simp only [listFrom, Except.bind_eq_ok_iff, ofValue_eq_ok_iff hitem, ih hrest,
      List.forall_mem_cons, List.map_cons]
    constructor
    · rintro ⟨e, ⟨he, rfl⟩, others, ⟨hothers, rfl⟩, h⟩
      exact ⟨⟨he, hothers⟩, (Except.ok.inj h).symm⟩
    · rintro ⟨⟨he, hothers⟩, rfl⟩
      exact ⟨_, ⟨he, rfl⟩, _, ⟨hothers, rfl⟩, rfl⟩

theorem listOfValue_eq_ok_iff {path : KeyPath} {v : Value} {es : List VariableEntry}
    (h : v.DistinctKeys) : listOfValue path v = .ok es ↔ v.IsEntryList ∧ es = v.entryList := by
  cases v with
  | null => simp [listOfValue, Value.IsEntryList, Value.entryList, eq_comm]
  | scalar s => simp [listOfValue, Value.IsEntryList, Value.IsEntry]
  | list items =>
    rw [listOfValue, listFrom_eq_ok_iff (Value.distinctKeys_list_iff.mp h)]
    simp [Value.IsEntryList, Value.IsEntry, Value.entryList]
  | table fields =>
    rw [listOfValue, Except.map_eq_ok_iff_of fun e => ofValue_eq_ok_iff h]
    simp [Value.IsEntryList, Value.entryList, Value.entry]

end VariableEntry

end DesignProcess
