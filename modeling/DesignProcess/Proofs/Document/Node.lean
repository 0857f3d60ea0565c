import DesignProcess.Proofs.Document.Request

namespace DesignProcess

namespace Value

def IsGroupEntry (e : String × Value) : Prop :=
  if IsSolverKey e.1 then IsText e.2 else (e.1 ≠ "" ∧ '.' ∉ e.1.toList) ∧ IsNode e.2

theorem isNode_iff_of_no_id {entries : List (String × Value)} (hid : entries.lookup "id" = none) :
    IsNode (.table entries) ↔ ∀ e ∈ entries, IsGroupEntry e := by
  have hanonymous : ∀ e ∈ entries, e.1 ≠ "id" := by
    intro e he hkey
    have hne := List.lookup_eq_none_iff.mp hid e he
    simp [hkey] at hne
  constructor
  · intro h
    cases h with
    | component identified options => exact absurd rfl (hanonymous _ identified)
    | group anonymous solvers names children =>
      intro e he
      unfold IsGroupEntry
      split
      · rename_i hsolver
        exact solvers e he hsolver
      · rename_i hsolver
        exact ⟨names e he hsolver, children e he hsolver⟩
  · intro h
    refine .group hanonymous (fun e he hsolver => ?_) (fun e he hsolver => ?_)
      fun e he hsolver => ?_
    · simpa [IsGroupEntry, hsolver] using h e he
    · have hentry := h e he
      rw [IsGroupEntry, if_neg hsolver] at hentry
      exact hentry.1
    · have hentry := h e he
      rw [IsGroupEntry, if_neg hsolver] at hentry
      exact hentry.2

theorem IsNode.isTable {v : Value} (h : IsNode v) : v.isTable = true := by
  cases h <;> rfl

end Value

namespace SolverTexts

def set (t : SolverTexts) (e : String × Value) : SolverTexts :=
  if e.1 = "nonlinear_solver" then { t with nonlinear := e.2.text? }
  else if e.1 = "linear_solver" then { t with linear := e.2.text? }
  else t

attribute [ext] SolverTexts

theorem foldl_eq_solverTexts {entries : List (String × Value)}
    (hkeys : (entries.map (·.1)).Nodup) :
    entries.foldl set ⟨none, none⟩ = Value.solverTexts entries := by
  apply SolverTexts.ext
  · rw [Record.foldl_field SolverTexts.nonlinear "nonlinear_solver" Value.text? ?_ hkeys]
    · cases h : entries.lookup "nonlinear_solver" <;> simp [Value.solverTexts, Value.textAt, h]
    · intro t k v
      by_cases hn : k = "nonlinear_solver"
      · simp [set, hn]
      · by_cases hl : k = "linear_solver" <;> simp [set, hn, hl]
  · rw [Record.foldl_field SolverTexts.linear "linear_solver" Value.text? ?_ hkeys]
    · cases h : entries.lookup "linear_solver" <;> simp [Value.solverTexts, Value.textAt, h]
    · intro t k v
      by_cases hl : k = "linear_solver"
      · simp [set, hl]
      · by_cases hn : k = "nonlinear_solver" <;> simp [set, hn, hl]

end SolverTexts

namespace ModelSpec

theorem isChildName_iff {k : String} : isChildName k = true ↔ k ≠ "" ∧ '.' ∉ k.toList := by
  simp [isChildName]

theorem hasId_eq {entries : List (String × Value)} :
    hasId entries = (entries.lookup "id").isSome := by
  induction entries with
  | nil => rfl
  | cons e rest ih =>
    obtain ⟨k, v⟩ := e
    rw [List.lookup_cons]
    by_cases h : k = "id"
    · simp [hasId, h]
    · have hne : ("id" == k) = false := by simpa using fun h' => h h'.symm
      simp only [hne, ← ih]
      simp [hasId, h]

theorem groupOfEntries_solver {path : KeyPath} {solvers : SolverTexts}
    {done : List (String × ModelSpec)} {k : String} {v : Value} {rest : List (String × Value)}
    {spec : ModelSpec} (hsolver : Value.IsSolverKey k) :
    groupOfEntries path solvers done ((k, v) :: rest) = .ok spec ↔
      v.IsText ∧ groupOfEntries path (solvers.set (k, v)) done rest = .ok spec := by
  simp only [groupOfEntries]
  rcases hsolver with rfl | rfl
  · simp only [↓reduceIte, Except.bind_eq_ok_iff, Value.string?_eq_ok_iff]
    constructor
    · rintro ⟨text, ⟨hv, rfl⟩, h⟩
      exact ⟨hv, h⟩
    · rintro ⟨hv, h⟩
      exact ⟨_, ⟨hv, rfl⟩, h⟩
  · have hne : "linear_solver" ≠ "nonlinear_solver" := by decide
    simp only [hne, ↓reduceIte, Except.bind_eq_ok_iff, Value.string?_eq_ok_iff]
    constructor
    · rintro ⟨text, ⟨hv, rfl⟩, h⟩
      exact ⟨hv, h⟩
    · rintro ⟨hv, h⟩
      exact ⟨_, ⟨hv, rfl⟩, h⟩

theorem groupOfEntries_child {path : KeyPath} {solvers : SolverTexts}
    {done : List (String × ModelSpec)} {k : String} {v : Value} {rest : List (String × Value)}
    {spec : ModelSpec} (hchild : ¬Value.IsSolverKey k) (hnew : k ∉ done.map (·.1)) :
    groupOfEntries path solvers done ((k, v) :: rest) = .ok spec ↔
      v.isTable = true ∧ (k ≠ "" ∧ '.' ∉ k.toList) ∧ ∃ child, ofValue (path.key k) v = .ok child ∧
        groupOfEntries path solvers (done ++ [(k, child)]) rest = .ok spec := by
  have hn : k ≠ "nonlinear_solver" := fun h => hchild (.inl h)
  have hl : k ≠ "linear_solver" := fun h => hchild (.inr h)
  have hdone : done.any (·.1 == k) = false := by
    rw [← Bool.not_eq_true, any_key_iff_mem]
    exact hnew
  simp only [groupOfEntries, hn, hl, hdone, ↓reduceIte, ← isChildName_iff]
  cases htable : v.isTable with
  | false => simp
  | true =>
    cases hname : isChildName k with
    | false => simp
    | true => simp [Except.bind_eq_ok_iff]

mutual

theorem ofValue_eq_ok_iff {path : KeyPath} {v : Value} {spec : ModelSpec} (h : v.DistinctKeys) :
    ofValue path v = .ok spec ↔ v.IsNode ∧ spec = v.node := by
  cases v with
  | null =>
    constructor
    · intro h
      cases h
    · rintro ⟨⟨⟩, -⟩
  | scalar s =>
    constructor
    · intro h
      cases h
    · rintro ⟨⟨⟩, -⟩
  | list items =>
    constructor
    · intro h
      cases h
    · rintro ⟨⟨⟩, -⟩
  | table entries =>
    obtain ⟨hkeys, heach⟩ := Value.distinctKeys_table_iff.mp h
    simp only [ofValue, Value.node, hasId_eq]
    cases hid : entries.lookup "id" with
    | some v =>
      rw [Value.isNode_iff_of_id hkeys hid]
      simp only [Option.isSome_some, ↓reduceIte, Except.map_eq_ok_iff]
      constructor
      · rintro ⟨r, hr, rfl⟩
        obtain ⟨hall, rfl⟩ := (ComponentRequest.ofEntries_eq_ok_iff hkeys).mp hr
        exact ⟨hall, rfl⟩
      · rintro ⟨hall, rfl⟩
        exact ⟨_, (ComponentRequest.ofEntries_eq_ok_iff hkeys).mpr ⟨hall, rfl⟩, rfl⟩
    | none =>
      rw [Value.isNode_iff_of_no_id hid, ← SolverTexts.foldl_eq_solverTexts hkeys]
      simp only [Option.isSome_none, Bool.false_eq_true, ↓reduceIte]
      exact groupOfEntries_eq_ok_iff (by simpa using hkeys) heach

theorem groupOfEntries_eq_ok_iff {path : KeyPath} {solvers : SolverTexts}
    {done : List (String × ModelSpec)} {entries : List (String × Value)} {spec : ModelSpec}
    (hkeys : (done.map (·.1) ++ entries.map (·.1)).Nodup)
    (heach : ∀ e ∈ entries, e.2.DistinctKeys) :
    groupOfEntries path solvers done entries = .ok spec ↔
      (∀ e ∈ entries, Value.IsGroupEntry e) ∧
        spec = .group (entries.foldl SolverTexts.set solvers) (done ++ Value.children entries) := by
  cases entries with
  | nil => simp [groupOfEntries, Value.children, eq_comm]
  | cons e rest =>
    obtain ⟨k, v⟩ := e
    obtain ⟨hv, hrest⟩ := List.forall_mem_cons.mp heach
    have hnew : k ∉ done.map (·.1) := fun hmem =>
      (List.nodup_append.mp hkeys).2.2 k hmem k List.mem_cons_self rfl
    rw [List.forall_mem_cons, List.foldl_cons]
    by_cases hk : Value.IsSolverKey k
    · have hkeys' : (done.map (·.1) ++ rest.map (·.1)).Nodup :=
        hkeys.sublist ((List.sublist_cons_self _ _).append_left _)
      rw [groupOfEntries_solver hk, groupOfEntries_eq_ok_iff hkeys' hrest]
      simp only [Value.IsGroupEntry, Value.children, hk, ↓reduceIte, and_assoc]
    · have hset : solvers.set (k, v) = solvers := by
        simp only [Value.IsSolverKey, not_or] at hk
        simp [SolverTexts.set, hk.1, hk.2]
      rw [groupOfEntries_child hk hnew, hset]
      simp only [Value.IsGroupEntry, Value.children, hk, ↓reduceIte]
      constructor
      · rintro ⟨-, hname, child, hchild, h⟩
        have hkeys' : ((done ++ [(k, child)]).map (·.1) ++ rest.map (·.1)).Nodup := by
          simpa using hkeys
        obtain ⟨hnode, rfl⟩ := (ofValue_eq_ok_iff hv).mp hchild
        obtain ⟨hall, rfl⟩ := (groupOfEntries_eq_ok_iff hkeys' hrest).mp h
        exact ⟨⟨⟨hname, hnode⟩, hall⟩, by simp⟩
      · rintro ⟨⟨⟨hname, hnode⟩, hall⟩, rfl⟩
        have hkeys' : ((done ++ [(k, v.node)]).map (·.1) ++ rest.map (·.1)).Nodup := by
          simpa using hkeys
        refine ⟨hnode.isTable, hname, _, (ofValue_eq_ok_iff hv).mpr ⟨hnode, rfl⟩, ?_⟩
        exact (groupOfEntries_eq_ok_iff hkeys' hrest).mpr ⟨hall, by simp⟩

end

end ModelSpec

end DesignProcess
