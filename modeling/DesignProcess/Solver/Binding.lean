import DesignProcess.CallSpec.Reading
import DesignProcess.Expectation

namespace DesignProcess

structure Solver where
  kind : SolverKind
  target : String
  arguments : List (String × Scalar)
deriving DecidableEq, Repr

/-- Where no solver is given, the execution engine chooses one. -/
abbrev SolverChoice := Option Solver

namespace SolverChoice

def render : SolverChoice → String
  | none => "engine default"
  | some s => s.kind.name ++ CallSpec.renderArguments s.arguments

def ofCall (slot : SolverSlot) (path : KeyPath) (spec : CallSpec) :
    Except Malformed SolverChoice :=
  match SolverKind.ofName? spec.kind with
  | none => .error ⟨path, .knownSolver slot spec.kind⟩
  | some kind =>
    if kind.slot = slot then .ok (some ⟨kind, spec.target, spec.arguments⟩)
    else .error ⟨path, .solverInSlot slot kind⟩

def ofText? (slot : SolverSlot) (path : KeyPath) : Option String → Except Malformed SolverChoice
  | none => .ok none
  | some text =>
    match CallSpec.ofText text with
    | .error e => .error ⟨path, .solver e⟩
    | .ok spec => ofCall slot path spec

end SolverChoice

structure Solvers where
  nonlinear : SolverChoice
  linear : SolverChoice
deriving DecidableEq, Repr

end DesignProcess
