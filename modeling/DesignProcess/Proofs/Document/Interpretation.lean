import DesignProcess.Proofs.Document.Node
import DesignProcess.Proofs.Document.Optimization

namespace DesignProcess.Document

attribute [ext] Draft

def Draft.set (d : Draft) (e : String × Value) : Draft :=
  if e.1 = "title" then { d with title := e.2.text? }
  else if e.1 = "module_folders" then { d with moduleFolders := e.2.folders }
  else if e.1 = "input_file" then { d with inputFile := e.2.text?.map Path.mk }
  else if e.1 = "output_file" then { d with outputFile := e.2.text?.map Path.mk }
  else if e.1 = "driver" then { d with driver := e.2.text? }
  else if e.1 = "model" then { d with model := some e.2.node }
  else if e.1 = "optimization" then { d with optimization := e.2.optimization? }
  else d

theorem Draft.extend_eq_ok_iff {d t : Draft} {e : String × Value} (h : e.2.DistinctKeys) :
    d.extend e = .ok t ↔ Value.IsRootEntry e ∧ t = d.set e := by
  obtain ⟨k, v⟩ := e
  simp only [extend]
  split
  · rw [Except.map_eq_ok_iff_of fun s => Value.string?_eq_ok_iff]
    simp [Value.IsRootEntry, set]
  · rw [Except.map_eq_ok_iff_of fun ps => Value.pathList_eq_ok_iff]
    simp [Value.IsRootEntry, set]
  · rw [Except.map_eq_ok_iff_of fun s => Value.string?_eq_ok_iff]
    simp [Value.IsRootEntry, set]
  · rw [Except.map_eq_ok_iff_of fun s => Value.string?_eq_ok_iff]
    simp [Value.IsRootEntry, set]
  · rw [Except.map_eq_ok_iff_of fun s => Value.string?_eq_ok_iff]
    simp [Value.IsRootEntry, set]
  · rw [Except.map_eq_ok_iff_of fun m => ModelSpec.ofValue_eq_ok_iff h]
    simp [Value.IsRootEntry, set]
  · rw [Except.map_eq_ok_iff_of fun o => OptimizationSpec.ofValue_eq_ok_iff h]
    simp [Value.IsRootEntry, set]
  · rename_i htitle hfolders hinput houtput hdriver hmodel hoptimization
    have hentry : ¬Value.IsRootEntry (k, v) := by
      simp only [Value.IsRootEntry, List.mem_cons, List.not_mem_nil, or_false]
      rintro (⟨rfl | rfl | rfl | rfl, -⟩ | ⟨rfl, -⟩ | ⟨rfl, -⟩ | ⟨rfl, -⟩) <;> contradiction
    simp [hentry]

theorem foldl_set {entries : List (String × Value)} (hkeys : (entries.map (·.1)).Nodup) :
    entries.foldl Draft.set .empty = {
      title := Value.textAt entries "title"
      moduleFolders := ((entries.lookup "module_folders").map Value.folders).getD []
      inputFile := (Value.textAt entries "input_file").map Path.mk
      outputFile := (Value.textAt entries "output_file").map Path.mk
      driver := Value.textAt entries "driver"
      model := (entries.lookup "model").map Value.node
      optimization := (entries.lookup "optimization").bind Value.optimization? } := by
  apply Draft.ext
  · exact Record.foldl_optional Draft.title "title" Value.text? rfl (by grind [Draft.set]) hkeys
  · exact Record.foldl_field Draft.moduleFolders "module_folders" Value.folders
      (by grind [Draft.set]) hkeys
  · rw [Record.foldl_optional Draft.inputFile "input_file" (fun v => v.text?.map Path.mk) rfl
      (by grind [Draft.set]) hkeys]
    cases h : entries.lookup "input_file" <;> simp [Value.textAt, h]
  · rw [Record.foldl_optional Draft.outputFile "output_file" (fun v => v.text?.map Path.mk) rfl
      (by grind [Draft.set]) hkeys]
    cases h : entries.lookup "output_file" <;> simp [Value.textAt, h]
  · exact Record.foldl_optional Draft.driver "driver" Value.text? rfl (by grind [Draft.set]) hkeys
  · rw [Record.foldl_optional Draft.model "model" (fun v => some v.node) rfl
      (by grind [Draft.set]) hkeys]
    cases entries.lookup "model" <;> rfl
  · exact Record.foldl_optional Draft.optimization "optimization" Value.optimization? rfl
      (by grind [Draft.set]) hkeys

theorem Draft.document_eq_ok_iff {d : Draft} {doc : Document} :
    d.document = .ok doc ↔ ∃ m, d.model = some m ∧
      doc = ⟨d.title.getD "", d.moduleFolders, d.inputFile, d.outputFile, d.driver, m,
        d.optimization, none⟩ := by
  unfold document
  cases d.model with
  | none => simp
  | some m => simp [eq_comm]

theorem ofValue_eq_ok_iff {v : Value} {d : Document} (h : v.DistinctKeys) :
    ofValue v = .ok d ↔ v.Conforms ∧ d = v.document := by
  cases h with
  | null => simp [ofValue, Value.Conforms]
  | scalar s => simp [ofValue, Value.Conforms]
  | list each => simp [ofValue, Value.Conforms]
  | @table entries keys each =>
    have hfold {d : Draft} : entries.foldlM Draft.extend .empty = .ok d ↔
        (∀ e ∈ entries, Value.IsRootEntry e) ∧ d = entries.foldl Draft.set .empty :=
      Record.foldlM_eq_ok_iff fun e he s t => Draft.extend_eq_ok_iff (each e he)
    simp only [ofValue, Except.bind_eq_ok_iff, hfold, foldl_set keys, Draft.document_eq_ok_iff]
    constructor
    · rintro ⟨_, ⟨hall, rfl⟩, m, hm, rfl⟩
      obtain ⟨w, hw, rfl⟩ := Option.map_eq_some_iff.mp hm
      obtain ⟨before, after, rfl, -⟩ := List.lookup_eq_some_iff.mp hw
      refine ⟨⟨_, rfl, hall, w, by simp⟩, ?_⟩
      simp [Value.document, hw]
    · rintro ⟨⟨entries', heq, hall, w, hw⟩, rfl⟩
      obtain rfl := Value.table.inj heq
      have hlookup := lookup_eq_some_of_mem keys hw
      exact ⟨_, ⟨hall, rfl⟩, w.node, by simp [hlookup], by simp [Value.document, hlookup]⟩

theorem interpretation_iff_conforms {v : Value} (h : v.DistinctKeys) :
    ((∃ d, ofValue v = .ok d) ↔ v.Conforms) ∧ ∀ d, ofValue v = .ok d → d = v.document := by
  constructor
  · constructor
    · rintro ⟨d, hd⟩
      exact ((ofValue_eq_ok_iff h).mp hd).1
    · intro hv
      exact ⟨v.document, (ofValue_eq_ok_iff h).mpr ⟨hv, rfl⟩⟩
  · intro d hd
    exact ((ofValue_eq_ok_iff h).mp hd).2

theorem interpretation_iff_conforms_wing :
    let wing : Value := .table
      [("id", .scalar (.string "geometry")), ("span", .scalar (.integer 3))]
    let goal : Value := .table
      [("upper", .scalar (.float 2.5)), ("units", .null), ("lower", .scalar (.integer 1)),
        ("name", .scalar (.string "mass"))]
    let v : Value := .table
      [("title", .null), ("optimization", .table [("objective", .list [goal])]),
        ("model", .table [("wing", wing), ("linear_solver", .null)])]
    v.DistinctKeys ∧ v.Conforms ∧ ofValue v = .ok v.document ∧
      v.document.optimization = some ⟨[], [], [⟨"mass", some 1, some 2.5, none, none⟩]⟩ := by
  intro wing goal v
  have hv : v.DistinctKeys := by
    simp [v, wing, goal, Value.distinctKeys_table_iff, Value.distinctKeys_list_iff,
      Value.DistinctKeys.null, Value.DistinctKeys.scalar]
  have hread : ∃ d, ofValue v = .ok d := ⟨_, rfl⟩
  obtain ⟨hiff, hdocument⟩ := interpretation_iff_conforms hv
  refine ⟨hv, hiff.mp hread, ?_, by decide⟩
  obtain ⟨d, hd⟩ := hread
  rw [hd, hdocument d hd]

end DesignProcess.Document
