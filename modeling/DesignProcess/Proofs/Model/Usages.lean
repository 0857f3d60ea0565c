import DesignProcess.Proofs.Model.Declared

namespace DesignProcess.Model

def DeclaresAs (m : Model) (name : String) (direction : Direction) : Prop :=
  ∃ p, m.Holds p ∧ ⟨name, direction⟩ ∈ p.component.interface

inductive Labelled (m : Model) (name : String) : String → Prop
  | input (hread : m.DeclaresAs name .input) (hwritten : ¬m.DeclaresAs name .output) :
      Labelled m name "in"
  | output (hread : ¬m.DeclaresAs name .input) (hwritten : m.DeclaresAs name .output) :
      Labelled m name "out"
  | both (hread : m.DeclaresAs name .input) (hwritten : m.DeclaresAs name .output) :
      Labelled m name "in/out"

variable {m : Model} {name : String} {direction : Direction}

theorem declares_iff_declaresAs : m.Declares name ↔ ∃ direction, m.DeclaresAs name direction := by
  constructor
  · rintro ⟨p, hp, v, hv, rfl⟩
    exact ⟨v.direction, p, hp, hv⟩
  · rintro ⟨direction, p, hp, hv⟩
    exact ⟨p, hp, _, hv, rfl⟩

mutual

theorem mem_componentsFrom_iff {m : Model} {above : String} {p : Placement} :
    (∃ path, (path, p) ∈ m.componentsFrom above) ↔ m.Holds p := by
  cases m with
  | component placement =>
    constructor
    · rintro ⟨path, h⟩
      cases List.mem_singleton.mp h
      exact .here
    · intro h
      cases h
      exact ⟨above, List.mem_singleton_self _⟩
  | group solvers children =>
    rw [componentsFrom, mem_componentsOf_iff]
    constructor
    · rintro ⟨⟨k, child⟩, hchild, h⟩
      exact .deeper hchild h
    · intro h
      cases h with
      | deeper hchild h => exact ⟨_, hchild, h⟩

theorem mem_componentsOf_iff {children : List (String × Model)} {above : String} {p : Placement} :
    (∃ path, (path, p) ∈ componentsOf above children) ↔ ∃ e ∈ children, e.2.Holds p := by
  cases children with
  | nil => simp [componentsOf]
  | cons e rest =>
    obtain ⟨k, child⟩ := e
    simp only [componentsOf, List.mem_append, exists_or, mem_componentsFrom_iff,
      mem_componentsOf_iff, List.mem_cons, exists_eq_or_imp]

end

def interfaces (m : Model) : List Variable :=
  m.components.flatMap fun (_, p) => p.component.interface

theorem declarations_eq_foldl (m : Model) :
    m.declarations = m.interfaces.foldl declare .empty := rfl

theorem mem_interfaces_iff : ⟨name, direction⟩ ∈ m.interfaces ↔ m.DeclaresAs name direction := by
  rw [interfaces, List.mem_flatMap]
  constructor
  · rintro ⟨⟨path, p⟩, hp, hv⟩
    exact ⟨p, mem_componentsFrom_iff.mp ⟨path, hp⟩, hv⟩
  · rintro ⟨p, hp, hv⟩
    obtain ⟨path, hpath⟩ := mem_componentsFrom_iff.mpr hp
    exact ⟨(path, p), hpath, hv⟩

theorem mem_directions_add {u : Usage} {added : Direction} :
    direction ∈ (u.add added).directions ↔ direction ∈ u.directions ∨ direction = added := by
  obtain ⟨read, written⟩ := u
  revert read written
  cases direction <;> cases added <;> decide

def directionsIn (d : Dictionary Usage) (name : String) : List Direction :=
  ((d.get? name).getD .none).directions

theorem mem_directionsIn_declare {d : Dictionary Usage} {v : Variable} :
    direction ∈ directionsIn (declare d v) name ↔
      direction ∈ directionsIn d name ∨ v = ⟨name, direction⟩ := by
  obtain ⟨k, added⟩ := v
  unfold directionsIn declare
  rw [Dictionary.get?_insert]
  by_cases hname : name = k
  · subst hname
    simp [mem_directions_add, eq_comm]
  · simp [hname, eq_comm]

theorem mem_directionsIn_foldl {vs : List Variable} {d : Dictionary Usage} :
    direction ∈ directionsIn (vs.foldl declare d) name ↔
      direction ∈ directionsIn d name ∨ ⟨name, direction⟩ ∈ vs := by
  induction vs generalizing d with
  | nil => simp
  | cons v rest ih =>
    rw [List.foldl_cons, ih, mem_directionsIn_declare, List.mem_cons, or_assoc, eq_comm]

theorem mem_directionsIn_declarations :
    direction ∈ directionsIn m.declarations name ↔ m.DeclaresAs name direction := by
  have hempty : directionsIn .empty name = [] := rfl
  rw [declarations_eq_foldl, mem_directionsIn_foldl, hempty, mem_interfaces_iff]
  simp

theorem contains_declarations_iff : m.declarations.contains name = true ↔ m.Declares name := by
  have hadd (d : Dictionary Usage) (v : Variable) (k : String) :
      (declare d v).contains k = true ↔ k = v.name ∨ d.contains k = true :=
    Dictionary.contains_insert d v.name k _
  rw [declarations_eq_foldl, contains_foldl hadd, Dictionary.contains_empty,
    declares_iff_declaresAs]
  simp only [← mem_interfaces_iff]
  constructor
  · rintro (h | ⟨⟨k, direction⟩, hv, rfl⟩)
    · cases h
    · exact ⟨direction, hv⟩
  · rintro ⟨direction, hv⟩
    exact .inr ⟨_, hv, rfl⟩

theorem names_declarations : m.declarations.names = m.variableNames := by
  apply Dictionary.names_eq
  intro name
  rw [contains_declarations_iff, contains_variableTable_iff]

theorem directions_of_entry {u : Usage} (h : (name, u) ∈ m.declarations.entries) :
    direction ∈ u.directions ↔ m.DeclaresAs name direction := by
  rw [← mem_directionsIn_declarations, directionsIn, Dictionary.get?_eq_some_iff.mpr h,
    Option.getD_some]

theorem labelled_of_entry {u : Usage} (h : (name, u) ∈ m.declarations.entries) :
    Labelled m name u.label := by
  have hdeclared : ∃ direction, m.DeclaresAs name direction := by
    rw [← declares_iff_declaresAs, ← contains_declarations_iff, Dictionary.contains,
      Dictionary.get?_eq_some_iff.mpr h, Option.isSome_some]
  obtain ⟨read, written⟩ := u
  have hread : read = true ↔ m.DeclaresAs name .input := by
    rw [← directions_of_entry h]
    cases read <;> cases written <;> decide
  have hwritten : written = true ↔ m.DeclaresAs name .output := by
    rw [← directions_of_entry h]
    cases read <;> cases written <;> decide
  cases read with
  | true =>
    cases written with
    | true => exact .both (hread.mp rfl) (hwritten.mp rfl)
    | false => exact .input (hread.mp rfl) (mt hwritten.mpr Bool.false_ne_true)
  | false =>
    cases written with
    | true => exact .output (mt hread.mpr Bool.false_ne_true) (hwritten.mp rfl)
    | false =>
      obtain ⟨direction, hdirection⟩ := hdeclared
      cases direction with
      | input => cases hread.mpr hdirection
      | output => cases hwritten.mpr hdirection

end DesignProcess.Model
