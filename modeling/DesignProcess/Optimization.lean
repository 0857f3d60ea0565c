import DesignProcess.AssemblyError
import DesignProcess.Document.Basic
import DesignProcess.Model.Basic

namespace DesignProcess

structure Binding where
  role : Role
  entry : VariableEntry
deriving DecidableEq, Repr

structure Optimization where
  designVariables : List Binding
  constraints : List Binding
  objective : Binding
deriving DecidableEq, Repr

namespace Optimization

def bindEntry (declared : Dictionary Unit) (role : Role) (e : VariableEntry) :
    Except AssemblyError Binding :=
  match crossedBounds? e.lower e.upper with
  | some (l, u) => .error (.invalidBounds e.name role l u)
  | none =>
    if declared.contains e.name then .ok ⟨role, e⟩ else .error (.unknownVariable e.name role)

def bind (m : Model) (spec : OptimizationSpec) : Except AssemblyError Optimization :=
  match spec.objectives with
  | [objective] => do
    let declared := m.variableTable
    let designVariables ← spec.designVariables.mapM (bindEntry declared .designVariable)
    let constraints ← spec.constraints.mapM (bindEntry declared .constraint)
    let objective ← bindEntry declared .objective objective
    .ok ⟨designVariables, constraints, objective⟩
  | objectives =>
    .error (.malformed
      ⟨(KeyPath.root.key "optimization").key "objective", .oneObjective objectives.length⟩)

def driver (text : String) : Except Malformed CallSpec :=
  match CallSpec.ofText text with
  | .ok spec => .ok spec
  | .error e => .error ⟨KeyPath.root.key "driver", .driver e⟩

end Optimization

end DesignProcess
