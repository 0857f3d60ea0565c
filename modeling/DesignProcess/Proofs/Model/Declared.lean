import DesignProcess.Model.Basic
import DesignProcess.Proofs.Dictionary

namespace DesignProcess

namespace Model

inductive Holds (p : Placement) : Model → Prop
  | here : Holds p (.component p)
  | deeper {solvers : Solvers} {children : List (String × Model)} {name : String} {child : Model}
      (hchild : (name, child) ∈ children) (h : Holds p child) : Holds p (.group solvers children)

def Declares (m : Model) (name : String) : Prop :=
  ∃ p, m.Holds p ∧ ∃ v ∈ p.component.interface, v.name = name

theorem declares_component_iff {p : Placement} {name : String} :
    (Model.component p).Declares name ↔ ∃ v ∈ p.component.interface, v.name = name := by
  constructor
  · rintro ⟨p', hp, hname⟩
    cases hp with
    | here => exact hname
  · intro hname
    exact ⟨p, .here, hname⟩

theorem declares_group_iff {solvers : Solvers} {children : List (String × Model)} {name : String} :
    (Model.group solvers children).Declares name ↔ ∃ e ∈ children, e.2.Declares name := by
  constructor
  · rintro ⟨p, hp, hname⟩
    cases hp with
    | deeper hchild h => exact ⟨_, hchild, p, h, hname⟩
  · rintro ⟨⟨k, child⟩, hchild, p, hp, hname⟩
    exact ⟨p, .deeper hchild hp, hname⟩

theorem contains_foldl {α : Type} {add : Dictionary α → Variable → Dictionary α}
    (hadd : ∀ d v k, (add d v).contains k = true ↔ k = v.name ∨ d.contains k = true)
    {vs : List Variable} {d : Dictionary α} {k : String} :
    (vs.foldl add d).contains k = true ↔ d.contains k = true ∨ ∃ v ∈ vs, v.name = k := by
  induction vs generalizing d with
  | nil => simp
  | cons v rest ih =>
    simp only [List.foldl_cons, ih, hadd, List.mem_cons, exists_eq_or_imp]
    constructor
    · rintro ((rfl | h) | h)
      · exact .inr (.inl rfl)
      · exact .inl h
      · exact .inr (.inr h)
    · rintro (h | rfl | h)
      · exact .inl (.inr h)
      · exact .inl (.inl rfl)
      · exact .inr h

mutual

theorem contains_collectVariables {m : Model} {names : Dictionary Unit} {k : String} :
    (m.collectVariables names).contains k = true ↔ names.contains k = true ∨ m.Declares k := by
  cases m with
  | component p =>
    rw [collectVariables, contains_foldl fun d v k => Dictionary.contains_insert d v.name k (),
      declares_component_iff]
  | group solvers children =>
    rw [collectVariables, contains_collectVariablesOf, declares_group_iff]

theorem contains_collectVariablesOf {children : List (String × Model)} {names : Dictionary Unit}
    {k : String} : (collectVariablesOf names children).contains k = true ↔
      names.contains k = true ∨ ∃ e ∈ children, e.2.Declares k := by
  cases children with
  | nil => simp [collectVariablesOf]
  | cons e rest =>
    rw [collectVariablesOf, contains_collectVariablesOf, contains_collectVariables, or_assoc]
    simp only [List.mem_cons, exists_eq_or_imp]

end

theorem contains_variableTable_iff {m : Model} {name : String} :
    m.variableTable.contains name = true ↔ m.Declares name := by
  rw [variableTable, contains_collectVariables, Dictionary.contains_empty]
  simp

end Model

end DesignProcess
