import DesignProcess.Component.Basic
import DesignProcess.Dictionary
import DesignProcess.Solver.Binding

namespace DesignProcess

structure Placement where
  identifier : String
  component : Component
  options : List (String × Scalar)
deriving DecidableEq, Repr

inductive Model
  | component (placement : Placement)
  | group (solvers : Solvers) (children : List (String × Model))
deriving Repr

namespace Model

mutual

def nodeCount : Model → Nat
  | component _ => 1
  | group _ children => nodeCounts children + 1

def nodeCounts : List (String × Model) → Nat
  | [] => 0
  | (_, child) :: rest => child.nodeCount + nodeCounts rest

end

def childPath (path name : String) : String := if path.isEmpty then name else path ++ "." ++ name

mutual

def componentsFrom (path : String) : Model → List (String × Placement)
  | component placement => [(path, placement)]
  | group _ children => componentsOf path children

def componentsOf (path : String) : List (String × Model) → List (String × Placement)
  | [] => []
  | (name, child) :: rest =>
    child.componentsFrom (childPath path name) ++ componentsOf path rest

end

def components (m : Model) : List (String × Placement) := m.componentsFrom ""

structure Usage where
  read : Bool
  written : Bool
deriving DecidableEq, Repr

def Usage.none : Usage := ⟨false, false⟩

def Usage.add (u : Usage) : Direction → Usage
  | .input => { u with read := true }
  | .output => { u with written := true }

def Usage.label (u : Usage) : String :=
  if u.written then (if u.read then "in/out" else "out") else "in"

def Usage.directions (u : Usage) : List Direction :=
  (if u.read then [.input] else []) ++ if u.written then [.output] else []

def declare (d : Dictionary Usage) (v : Variable) : Dictionary Usage :=
  d.insert v.name (((d.get? v.name).getD .none).add v.direction)

def declarations (m : Model) : Dictionary Usage :=
  (m.components.flatMap fun (_, p) => p.component.interface).foldl declare .empty

mutual

def collectVariables (names : Dictionary Unit) : Model → Dictionary Unit
  | component placement =>
    placement.component.interface.foldl (fun names v => names.insert v.name ()) names
  | group _ children => collectVariablesOf names children

def collectVariablesOf (names : Dictionary Unit) : List (String × Model) → Dictionary Unit
  | [] => names
  | (_, child) :: rest => collectVariablesOf (child.collectVariables names) rest

end

def variableTable (m : Model) : Dictionary Unit := m.collectVariables .empty

def variableNames (m : Model) : List String := m.variableTable.names

def child? (name : String) : Model → Option Model
  | group _ children => children.lookup name
  | component _ => none

def find? (m : Model) (path : String) : Option Model :=
  ((path.toList.splitOn '.').filter (· ≠ [])).foldlM
    (fun node name => node.child? (String.ofList name)) m

end Model

end DesignProcess
