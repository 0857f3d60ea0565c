import DesignProcess.Document.Schema

/-!
The schema of process descriptions, as a property of values in which no table has two entries
under one key. The order of the entries has no part in it.
-/

namespace DesignProcess

namespace Value

inductive DistinctKeys : Value → Prop
  | null : DistinctKeys .null
  | scalar (s : Scalar) : DistinctKeys (.scalar s)
  | list {items : List Value} (each : ∀ v ∈ items, DistinctKeys v) : DistinctKeys (.list items)
  | table {entries : List (String × Value)} (keys : (entries.map (·.1)).Nodup)
      (each : ∀ e ∈ entries, DistinctKeys e.2) : DistinctKeys (.table entries)

theorem distinctKeys_list_iff {items : List Value} :
    DistinctKeys (.list items) ↔ ∀ v ∈ items, DistinctKeys v := by
  constructor
  · rintro ⟨⟩
    assumption
  · exact .list

theorem distinctKeys_table_iff {entries : List (String × Value)} :
    DistinctKeys (.table entries) ↔
      (entries.map (·.1)).Nodup ∧ ∀ e ∈ entries, DistinctKeys e.2 := by
  constructor
  · rintro ⟨⟩
    constructor <;> assumption
  · rintro ⟨keys, each⟩
    exact .table keys each

def IsText (v : Value) : Prop := v = .null ∨ ∃ s, v = .scalar (.string s)

def IsNumber (v : Value) : Prop :=
  v = .null ∨ (∃ n, v = .scalar (.integer n)) ∨ ∃ x, v = .scalar (.float x) ∧ x.isFinite = true

def IsTextList (v : Value) : Prop :=
  v = .null ∨ ∃ items, v = .list items ∧ ∀ item ∈ items, ∃ s, item = .scalar (.string s)

def IsSolverKey (k : String) : Prop := k = "nonlinear_solver" ∨ k = "linear_solver"

instance (k : String) : Decidable (IsSolverKey k) :=
  inferInstanceAs (Decidable (k = "nonlinear_solver" ∨ k = "linear_solver"))

inductive IsNode : Value → Prop
  | component {entries : List (String × Value)} {id : String}
      (identified : ("id", .scalar (.string id)) ∈ entries)
      (options : ∀ e ∈ entries, e.1 ≠ "id" → ∃ s, e.2 = .scalar s) : IsNode (.table entries)
  | group {entries : List (String × Value)} (anonymous : ∀ e ∈ entries, e.1 ≠ "id")
      (solvers : ∀ e ∈ entries, IsSolverKey e.1 → IsText e.2)
      (names : ∀ e ∈ entries, ¬IsSolverKey e.1 → e.1 ≠ "" ∧ '.' ∉ e.1.toList)
      (children : ∀ e ∈ entries, ¬IsSolverKey e.1 → IsNode e.2) : IsNode (.table entries)

def IsEntryField (f : String × Value) : Prop :=
  (f.1 = "name" ∧ ∃ s, f.2 = .scalar (.string s)) ∨
    (f.1 ∈ ["lower", "upper", "scaler"] ∧ IsNumber f.2) ∨ (f.1 = "units" ∧ IsText f.2)

def IsEntry (v : Value) : Prop :=
  ∃ fields, v = .table fields ∧ (∀ f ∈ fields, IsEntryField f) ∧ ∃ w, ("name", w) ∈ fields

def IsEntryList (v : Value) : Prop :=
  v = .null ∨ IsEntry v ∨ ∃ items, v = .list items ∧ ∀ item ∈ items, IsEntry item

end Value

namespace OptimizationSpec.Field

def singular : Field → String
  | designVariables => "design_var"
  | constraints => "constraint"
  | objectives => "objective"

def plural : Field → String
  | designVariables => "design_variables"
  | constraints => "constraints"
  | objectives => "objectives"

theorem ofKey?_eq_some_iff {k : String} {f : Field} :
    ofKey? k = some f ↔ k = f.singular ∨ k = f.plural := by
  constructor
  · intro h
    unfold ofKey? at h
    split at h <;> cases h <;> simp [singular, plural]
  · rintro (rfl | rfl) <;> cases f <;> rfl

theorem key_unique_of_spelling {keys : List String} {k l : String} {f : Field}
    (h : ¬(f.singular ∈ keys ∧ f.plural ∈ keys)) (hk : k ∈ keys) (hl : l ∈ keys)
    (hkf : ofKey? k = some f) (hlf : ofKey? l = some f) : k = l := by
  rcases ofKey?_eq_some_iff.mp hkf with rfl | rfl <;>
    rcases ofKey?_eq_some_iff.mp hlf with rfl | rfl
  · rfl
  · exact absurd ⟨hk, hl⟩ h
  · exact absurd ⟨hl, hk⟩ h
  · rfl

end OptimizationSpec.Field

namespace Value

open OptimizationSpec (Field)

def IsOptimization (v : Value) : Prop :=
  v = .null ∨ ∃ entries, v = .table entries ∧
    (∀ e ∈ entries, (∃ f : Field, e.1 = f.singular ∨ e.1 = f.plural) ∧ IsEntryList e.2) ∧
    ∀ f : Field, ¬(f.singular ∈ entries.map (·.1) ∧ f.plural ∈ entries.map (·.1))

def IsRootEntry (e : String × Value) : Prop :=
  (e.1 ∈ ["title", "input_file", "output_file", "driver"] ∧ IsText e.2) ∨
    (e.1 = "module_folders" ∧ IsTextList e.2) ∨ (e.1 = "model" ∧ IsNode e.2) ∨
    (e.1 = "optimization" ∧ IsOptimization e.2)

def Conforms (v : Value) : Prop :=
  ∃ entries, v = .table entries ∧ (∀ e ∈ entries, IsRootEntry e) ∧ ∃ m, ("model", m) ∈ entries

end Value

end DesignProcess
