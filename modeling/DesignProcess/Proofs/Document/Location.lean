import DesignProcess.Document.Schema

namespace DesignProcess

namespace Expectation

def found? : Expectation → Option String
  | rootTable found | string found | pathString found | pathList found | node found
  | identifier found | scalarOption found | childTable found | optimization found
  | entryList found | entry found | nameString found | number found => some found
  | _ => none

def required? : Expectation → Option String
  | modelTable => some "model"
  | entryName => some "name"
  | _ => none

end Expectation

namespace Value

inductive Leads (Open : Value → Prop) : Value → List Segment → Value → Prop
  | here (v : Value) : Leads Open v [] v
  | key {entries : List (String × Value)} {k : String} {v w : Value} {path : List Segment}
      (passed : Open (.table entries)) (entry : (k, v) ∈ entries) (further : Leads Open v path w) :
      Leads Open (.table entries) (.key k :: path) w
  | index {items : List Value} {i : Nat} {v w : Value} {path : List Segment}
      (passed : Open (.list items)) (item : items[i]? = some v) (further : Leads Open v path w) :
      Leads Open (.list items) (.index i :: path) w

def IsMixed (v : Value) (child : String) : Prop :=
  ∃ entries t, v = .table entries ∧ "id" ∈ entries.map (·.1) ∧
    entries.find? (·.2.isTable) = some (child, t)

def Unmixed (v : Value) : Prop := ∀ child, ¬v.IsMixed child

inductive Fault (Open : Value → Prop) (v : Value) : List Segment → Expectation → Prop
  | present {path : List Segment} {w : Value} {x : Expectation} (place : v.Leads Open path w)
      (nothingRequired : x.required? = none) (kind : ∀ k ∈ x.found?, w.kindName = k)
      (mixed : ∀ child, x = .identifierOrChildren child → w.IsMixed child) : Fault Open v path x
  | absent {path : List Segment} {fields : List (String × Value)} {k : String} {x : Expectation}
      (place : v.Leads Open path (.table fields)) (required : x.required? = some k)
      (missing : k ∉ fields.map (·.1)) : Fault Open v (path ++ [.key k]) x

variable {Open : Value → Prop} {v w : Value} {x : Expectation}

theorem Leads.mono {Wider : Value → Prop} {path : List Segment} (h : v.Leads Open path w)
    (hwider : ∀ u, Open u → Wider u) : v.Leads Wider path w := by
  induction h with
  | here v => exact .here v
  | key passed entry _ ih => exact .key (hwider _ passed) entry ih
  | index passed item _ ih => exact .index (hwider _ passed) item ih

theorem Fault.mono {Wider : Value → Prop} {path : List Segment} (h : v.Fault Open path x)
    (hwider : ∀ u, Open u → Wider u) : v.Fault Wider path x := by
  cases h with
  | present place nothingRequired kind mixed =>
    exact .present (place.mono hwider) nothingRequired kind mixed
  | absent place required missing => exact .absent (place.mono hwider) required missing

theorem Fault.key {entries : List (String × Value)} {k : String} {path : List Segment}
    (h : v.Fault Open path x) (hentry : (k, v) ∈ entries) (hopen : Open (.table entries)) :
    (Value.table entries).Fault Open (.key k :: path) x := by
  cases h with
  | present place nothingRequired kind mixed =>
    exact .present (.key hopen hentry place) nothingRequired kind mixed
  | absent place required missing => exact .absent (.key hopen hentry place) required missing

theorem Fault.index {items : List Value} {i : Nat} {path : List Segment}
    (h : v.Fault Open path x) (hitem : items[i]? = some v) (hopen : Open (.list items)) :
    (Value.list items).Fault Open (.index i :: path) x := by
  cases h with
  | present place nothingRequired kind mixed =>
    exact .present (.index hopen hitem place) nothingRequired kind mixed
  | absent place required missing => exact .absent (.index hopen hitem place) required missing

def FaultBelow (Open : Value → Prop) (v : Value) (path : KeyPath) (m : Malformed) : Prop :=
  ∃ rest, m.path.segments = path.segments ++ rest ∧ v.Fault Open rest m.expected

variable {path : KeyPath} {m : Malformed}

theorem FaultBelow.here (nothingRequired : x.required? = none)
    (kind : ∀ k ∈ x.found?, v.kindName = k)
    (mixed : ∀ child, x = .identifierOrChildren child → v.IsMixed child) :
    v.FaultBelow Open path ⟨path, x⟩ :=
  ⟨[], (List.append_nil _).symm, .present (.here v) nothingRequired kind mixed⟩

theorem FaultBelow.ofKind (h : x.found? = some v.kindName) : v.FaultBelow Open path ⟨path, x⟩ := by
  apply FaultBelow.here
  · cases x <;> first | rfl | cases h
  · intro k hk
    exact Option.some.inj (h.symm.trans hk)
  · rintro child rfl
    cases h

theorem FaultBelow.plain (nothingFound : x.found? = none) (nothingRequired : x.required? = none)
    (unmixed : ∀ child, x ≠ .identifierOrChildren child) : v.FaultBelow Open path ⟨path, x⟩ := by
  refine .here nothingRequired (fun k hk => ?_) fun child hx => absurd hx (unmixed child)
  rw [nothingFound] at hk
  cases hk

theorem FaultBelow.missing {fields : List (String × Value)} {k : String}
    (required : x.required? = some k) (missing : k ∉ fields.map (·.1)) :
    (Value.table fields).FaultBelow Open path ⟨path.key k, x⟩ :=
  ⟨[.key k], rfl, .absent (.here _) required missing⟩

theorem FaultBelow.key {entries : List (String × Value)} {k : String}
    (h : v.FaultBelow Open (path.key k) m) (hentry : (k, v) ∈ entries)
    (hopen : Open (.table entries)) : (Value.table entries).FaultBelow Open path m := by
  obtain ⟨rest, hrest, hfault⟩ := h
  refine ⟨.key k :: rest, ?_, hfault.key hentry hopen⟩
  rw [hrest]
  exact List.append_assoc _ _ _

theorem FaultBelow.index {items : List Value} {i : Nat}
    (h : v.FaultBelow Open (path.index i) m) (hitem : items[i]? = some v)
    (hopen : Open (.list items)) : (Value.list items).FaultBelow Open path m := by
  obtain ⟨rest, hrest, hfault⟩ := h
  refine ⟨.index i :: rest, ?_, hfault.index hitem hopen⟩
  rw [hrest]
  exact List.append_assoc _ _ _

theorem FaultBelow.mono {Wider : Value → Prop} (h : v.FaultBelow Open path m)
    (hwider : ∀ u, Open u → Wider u) : v.FaultBelow Wider path m := by
  obtain ⟨rest, hrest, hfault⟩ := h
  exact ⟨rest, hrest, hfault.mono hwider⟩

end Value

end DesignProcess
