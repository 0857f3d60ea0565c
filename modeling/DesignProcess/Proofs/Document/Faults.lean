import DesignProcess.AssemblyError
import DesignProcess.Proofs.Document.Location
import DesignProcess.Proofs.Document.Record

namespace DesignProcess

variable {Open : Value → Prop} {path : KeyPath} {v : Value} {m : Malformed}

namespace Value

theorem string?_fault (h : v.string? path = .error m) : v.FaultBelow Open path m := by
  unfold string? at h
  split at h
  · cases h
  · cases h
  · cases h
    exact .ofKind rfl

theorem number?_fault (h : v.number? path = .error m) : v.FaultBelow Open path m := by
  unfold number? at h
  split at h
  · cases h
  · split at h
    · unfold finite at h
      split at h
      · cases h
      · cases h
        exact .plain rfl rfl nofun
    · cases h
      exact .ofKind rfl
  · cases h
    exact .ofKind rfl

theorem paths_fault {i : Nat} {items : List Value} (h : paths path i items = .error m) :
    ∃ j, ∃ w : Value, items[j]? = some w ∧ w.FaultBelow Open (path.index (i + j)) m := by
  induction items generalizing i with
  | nil => cases h
  | cons item rest ih =>
    unfold paths at h
    split at h
    · rename_i heq
      cases heq
    · rename_i s rest' heq
      obtain ⟨rfl, rfl⟩ := List.cons.inj heq
      obtain ⟨j, w, hw, hfault⟩ := ih (Except.map_eq_error_iff.mp h)
      refine ⟨j + 1, w, hw, ?_⟩
      rwa [Nat.add_right_comm] at hfault
    · rename_i w rest' _ heq
      obtain ⟨rfl, rfl⟩ := List.cons.inj heq
      cases h
      exact ⟨0, item, rfl, .ofKind rfl⟩

theorem pathList_fault (hopen : ∀ u, Open u) (h : v.pathList path = .error m) :
    v.FaultBelow Open path m := by
  unfold pathList at h
  split at h
  · cases h
  · rename_i items
    obtain ⟨j, w, hw, hfault⟩ := paths_fault h
    rw [Nat.zero_add] at hfault
    exact hfault.index hw (hopen _)
  · cases h
    exact .ofKind rfl

end Value

namespace ComponentRequest

theorem extend_fault {r : ComponentRequest} {e : String × Value}
    (h : extend path r e = .error m) : e.2.FaultBelow Open (path.key e.1) m := by
  unfold extend at h
  split at h
  · cases h
  · cases h
    exact .ofKind rfl
  · cases h
  · cases h
    exact .ofKind rfl

theorem ofEntries_fault {entries : List (String × Value)} (hid : ModelSpec.hasId entries = true)
    (h : ofEntries path entries = .error m) :
    (Value.table entries).FaultBelow Value.Unmixed path m := by
  unfold ofEntries at h
  split at h
  · rename_i child t hfind
    cases h
    refine .here rfl (fun _ hk => nomatch hk) ?_
    rintro _ hx
    cases hx
    exact ⟨entries, t, rfl, any_key_iff_mem.mp hid, hfind⟩
  · rename_i hnone
    obtain ⟨e, he, r, hr⟩ := Record.exists_of_foldlM_error h
    apply (extend_fault hr).key he
    rintro child ⟨entries', t, heq, -, hfind⟩
    cases heq
    rw [hnone] at hfind
    cases hfind

end ComponentRequest

namespace ModelSpec

theorem unmixed_of_anonymous {entries : List (String × Value)} (hid : hasId entries = false) :
    (Value.table entries).Unmixed := by
  rintro child ⟨entries', t, heq, hmem, -⟩
  cases heq
  rw [hasId, any_key_iff_mem.mpr hmem] at hid
  cases hid

theorem ofValue_mixed {child : String} (h : v.IsMixed child) :
    ofValue path v = .error ⟨path, .identifierOrChildren child⟩ := by
  obtain ⟨entries, t, rfl, hid, hfind⟩ := h
  have hid : hasId entries = true := any_key_iff_mem.mpr hid
  simp only [ofValue, hid, if_true, ComponentRequest.ofEntries, hfind, Except.map]

mutual

theorem ofValue_fault {path : KeyPath} {v : Value} {m : Malformed}
    (h : ofValue path v = .error m) :
    v.FaultBelow Value.Unmixed path m := by
  cases v with
  | null =>
    cases h
    exact .ofKind rfl
  | scalar s =>
    cases h
    exact .ofKind rfl
  | list items =>
    cases h
    exact .ofKind rfl
  | table entries =>
    simp only [ofValue] at h
    split at h
    · rename_i hid
      exact ComponentRequest.ofEntries_fault hid (Except.map_eq_error_iff.mp h)
    · rename_i hid
      obtain ⟨e, he, hfault⟩ := groupOfEntries_fault h
      exact hfault.key he (unmixed_of_anonymous (by simpa using hid))

theorem groupOfEntries_fault {path : KeyPath} {solvers : SolverTexts}
    {done : List (String × ModelSpec)} {entries : List (String × Value)} {m : Malformed}
    (h : groupOfEntries path solvers done entries = .error m) :
    ∃ e ∈ entries, e.2.FaultBelow Value.Unmixed (path.key e.1) m := by
  cases entries with
  | nil => cases h
  | cons e rest =>
    have hrest {solvers done} (h : groupOfEntries path solvers done rest = .error m) :
        ∃ e' ∈ e :: rest,
          e'.2.FaultBelow Value.Unmixed (path.key e'.1) m := by
      obtain ⟨e', he', hfault⟩ := groupOfEntries_fault h
      exact ⟨e', List.mem_cons_of_mem e he', hfault⟩
    obtain ⟨k, v⟩ := e
    simp only [groupOfEntries] at h
    split at h
    · rcases Except.bind_eq_error_iff.mp h with htext | ⟨text, -, h⟩
      · exact ⟨_, List.mem_cons_self, Value.string?_fault htext⟩
      · exact hrest h
    · split at h
      · rcases Except.bind_eq_error_iff.mp h with htext | ⟨text, -, h⟩
        · exact ⟨_, List.mem_cons_self, Value.string?_fault htext⟩
        · exact hrest h
      · split at h
        · cases h
          exact ⟨_, List.mem_cons_self, .ofKind rfl⟩
        · split at h
          · cases h
            exact ⟨_, List.mem_cons_self, .plain rfl rfl nofun⟩
          · split at h
            · cases h
              exact ⟨_, List.mem_cons_self, .plain rfl rfl nofun⟩
            · rcases Except.bind_eq_error_iff.mp h with hchild | ⟨child, -, h⟩
              · exact ⟨_, List.mem_cons_self, ofValue_fault hchild⟩
              · exact hrest h

end

end ModelSpec

namespace VariableEntry

theorem Draft.extend_fault {d : Draft} {f : String × Value} (h : d.extend path f = .error m) :
    f.2.FaultBelow Open (path.key f.1) m := by
  obtain ⟨k, v⟩ := f
  simp only [extend] at h
  split at h
  · rw [Except.map_eq_error_iff] at h
    unfold nameOf at h
    split at h
    · cases h
    · cases h
      exact .ofKind rfl
  · exact Value.number?_fault (Except.map_eq_error_iff.mp h)
  · exact Value.number?_fault (Except.map_eq_error_iff.mp h)
  · exact Value.number?_fault (Except.map_eq_error_iff.mp h)
  · exact Value.string?_fault (Except.map_eq_error_iff.mp h)
  · cases h
    exact .plain rfl rfl nofun

theorem Draft.extend_unnamed {d t : Draft} {f : String × Value} (h : d.extend path f = .ok t)
    (ht : t.name = none) : d.name = none ∧ f.1 ≠ "name" := by
  obtain ⟨k, v⟩ := f
  simp only [extend] at h
  split at h
  case h_1 =>
    obtain ⟨s, -, rfl⟩ := Except.map_eq_ok_iff.mp h
    cases ht
  case h_6 => cases h
  all_goals
    obtain ⟨x, -, rfl⟩ := Except.map_eq_ok_iff.mp h
    exact ⟨ht, by simp⟩

theorem ofValue_fault (hopen : ∀ u, Open u) (h : ofValue path v = .error m) :
    v.FaultBelow Open path m := by
  unfold ofValue at h
  split at h
  · rename_i fields
    rcases Except.bind_eq_error_iff.mp h with hfold | ⟨d, hd, hentry⟩
    · obtain ⟨f, hf, d, hd⟩ := Record.exists_of_foldlM_error hfold
      exact (Draft.extend_fault hd).key hf (hopen _)
    · unfold Draft.entry at hentry
      split at hentry
      · cases hentry
      · rename_i hname
        cases hentry
        have hmissing := Record.notMem_of_foldlM_unset Draft.name "name"
          (fun _ _ _ => Draft.extend_unnamed) hd hname
        exact .missing rfl hmissing.2
  · cases h
    exact .ofKind rfl

theorem listFrom_fault (hopen : ∀ u, Open u) {i : Nat} {items : List Value}
    (h : listFrom path i items = .error m) :
    ∃ j, ∃ w : Value, items[j]? = some w ∧ w.FaultBelow Open (path.index (i + j)) m := by
  induction items generalizing i with
  | nil => cases h
  | cons item rest ih =>
    rcases Except.bind_eq_error_iff.mp h with hitem | ⟨e, -, h⟩
    · exact ⟨0, item, rfl, ofValue_fault hopen hitem⟩
    · rcases Except.bind_eq_error_iff.mp h with hrest | ⟨es, -, h⟩
      · obtain ⟨j, w, hw, hfault⟩ := ih hrest
        refine ⟨j + 1, w, hw, ?_⟩
        rwa [Nat.add_right_comm] at hfault
      · cases h

theorem listOfValue_fault (hopen : ∀ u, Open u) (h : listOfValue path v = .error m) :
    v.FaultBelow Open path m := by
  unfold listOfValue at h
  split at h
  · cases h
  · exact ofValue_fault hopen (Except.map_eq_error_iff.mp h)
  · obtain ⟨j, w, hw, hfault⟩ := listFrom_fault hopen h
    rw [Nat.zero_add] at hfault
    exact hfault.index hw (hopen _)
  · cases h
    exact .ofKind rfl

end VariableEntry

namespace OptimizationSpec

theorem Draft.extend_fault (hopen : ∀ u, Open u) {d : Draft} {e : String × Value}
    (h : d.extend path e = .error m) : e.2.FaultBelow Open (path.key e.1) m := by
  unfold extend at h
  dsimp only at h
  split at h
  · cases h
    exact .plain rfl rfl nofun
  · split at h
    · cases h
      exact .plain rfl rfl nofun
    · exact VariableEntry.listOfValue_fault hopen (Except.map_eq_error_iff.mp h)

theorem ofValue_fault (hopen : ∀ u, Open u) (h : ofValue path v = .error m) :
    v.FaultBelow Open path m := by
  unfold ofValue at h
  split at h
  · cases h
  · rcases Except.bind_eq_error_iff.mp h with hfold | ⟨d, -, h⟩
    · obtain ⟨e, he, d, hd⟩ := Record.exists_of_foldlM_error hfold
      exact (Draft.extend_fault hopen hd).key he (hopen _)
    · cases h
  · cases h
    exact .ofKind rfl

end OptimizationSpec

namespace Document

theorem Draft.extend_fault {d : Draft} {e : String × Value} (h : d.extend e = .error m) :
    e.2.FaultBelow (fun _ => True) (KeyPath.root.key e.1) m ∧
      (e.1 = "model" →
        e.2.FaultBelow Value.Unmixed (KeyPath.root.key e.1) m) := by
  obtain ⟨k, v⟩ := e
  simp only [extend] at h
  split at h
  case h_2 =>
    have hfault := Value.pathList_fault (fun _ => trivial) (Except.map_eq_error_iff.mp h)
    exact ⟨hfault, fun hk => absurd hk (by simp)⟩
  case h_6 =>
    have hnode := ModelSpec.ofValue_fault (Except.map_eq_error_iff.mp h)
    exact ⟨hnode.mono fun _ _ => trivial, fun _ => hnode⟩
  case h_7 =>
    have hfault := OptimizationSpec.ofValue_fault (fun _ => trivial) (Except.map_eq_error_iff.mp h)
    exact ⟨hfault, fun hk => absurd hk (by simp)⟩
  case h_8 hmodel _ =>
    cases h
    exact ⟨.plain rfl rfl nofun, fun hk => absurd hk hmodel⟩
  all_goals
    refine ⟨?_, fun hk => absurd hk (by simp)⟩
    exact Value.string?_fault (Except.map_eq_error_iff.mp h)

theorem Draft.extend_modelless {d t : Draft} {e : String × Value} (h : d.extend e = .ok t)
    (ht : t.model = none) : d.model = none ∧ e.1 ≠ "model" := by
  obtain ⟨k, v⟩ := e
  simp only [extend] at h
  split at h
  case h_6 =>
    obtain ⟨n, -, rfl⟩ := Except.map_eq_ok_iff.mp h
    cases ht
  case h_8 => cases h
  all_goals
    obtain ⟨x, -, rfl⟩ := Except.map_eq_ok_iff.mp h
    exact ⟨ht, by simp⟩

theorem ofValue_fault {v : Value} (h : ofValue v = .error m) :
    v.Fault (fun _ => True) m.path.segments m.expected ∧
      ∀ rest, m.path.segments = .key "model" :: rest → m.expected ≠ .modelTable →
        ∃ entries n, v = .table entries ∧ ("model", n) ∈ entries ∧
          n.Fault Value.Unmixed rest m.expected := by
  unfold ofValue at h
  split at h
  · rename_i entries
    rcases Except.bind_eq_error_iff.mp h with hfold | ⟨d, hd, hdocument⟩
    · obtain ⟨⟨k, n⟩, hmem, d, hd⟩ := Record.exists_of_foldlM_error hfold
      obtain ⟨hfault, hmodel⟩ := Draft.extend_fault hd
      obtain ⟨rest, hrest, hfault⟩ := hfault
      have hsegments : m.path.segments = .key k :: rest := hrest
      refine ⟨hsegments ▸ hfault.key hmem trivial, ?_⟩
      intro rest' hrest' _
      obtain ⟨hk, rfl⟩ := List.cons.inj (hsegments.symm.trans hrest')
      obtain rfl := Segment.key.inj hk
      obtain ⟨rest'', hrest'', hnode⟩ := hmodel rfl
      obtain ⟨-, rfl⟩ := List.cons.inj (hsegments.symm.trans hrest'')
      exact ⟨entries, n, rfl, hmem, hnode⟩
    · unfold Draft.document at hdocument
      split at hdocument
      · rename_i hmodel
        cases hdocument
        have hmissing := Record.notMem_of_foldlM_unset Draft.model "model"
          (fun _ _ _ => Draft.extend_modelless) hd hmodel
        exact ⟨.absent (.here _) rfl hmissing.2, fun _ _ hne => absurd rfl hne⟩
      · cases hdocument
  · cases h
    exact ⟨.present (.here v) rfl (fun k hk => Option.some.inj hk) nofun, nofun⟩

theorem fault_addresses_place {v : Value} {e : AssemblyError}
    (h : orMalformed (ofValue v) = .error e) :
    (∃ m, e = .malformed m ∧ v.Fault (fun _ => True) m.path.segments m.expected ∧
      ∀ rest, m.path.segments = .key "model" :: rest → m.expected ≠ .modelTable →
        ∃ entries n, v = .table entries ∧ ("model", n) ∈ entries ∧
          n.Fault Value.Unmixed rest m.expected) ∧
      ∀ (path : KeyPath) (w : Value) (child : String), w.IsMixed child →
        ModelSpec.ofValue path w = .error ⟨path, .identifierOrChildren child⟩ := by
  refine ⟨?_, fun path w child => ModelSpec.ofValue_mixed⟩
  cases hv : ofValue v with
  | ok d =>
    rw [hv] at h
    cases h
  | error m =>
    rw [hv] at h
    cases h
    exact ⟨m, rfl, ofValue_fault hv⟩

theorem fault_addresses_place_wing :
    let wing : Value := .table
      [("span", .scalar (.integer 3)), ("tip", .table [("id", .null)]),
        ("id", .scalar (.string "geometry"))]
    let v : Value := .table [("title", .null), ("model", .table [("wing", wing)])]
    let m : Malformed :=
      ⟨(KeyPath.root.key "model").key "wing", .identifierOrChildren "tip"⟩
    orMalformed (ofValue v) = .error (.malformed m) ∧
      v.Fault (fun _ => True) m.path.segments m.expected := by
  intro wing v m
  have hv : orMalformed (ofValue v) = .error (.malformed m) := rfl
  refine ⟨hv, ?_⟩
  obtain ⟨⟨m', hm', hfault, -⟩, -⟩ := fault_addresses_place hv
  cases hm'
  exact hfault

end Document

end DesignProcess
