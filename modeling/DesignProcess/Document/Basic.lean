import DesignProcess.Files.Path
import DesignProcess.Scalar

namespace DesignProcess

structure ComponentRequest where
  id : String
  options : List (String × Scalar)
deriving DecidableEq, Repr

structure SolverTexts where
  nonlinear : Option String
  linear : Option String
deriving DecidableEq, Repr

inductive ModelSpec
  | component (request : ComponentRequest)
  | group (solvers : SolverTexts) (children : List (String × ModelSpec))
deriving Repr

structure VariableEntry where
  name : String
  lower : Option Float
  upper : Option Float
  units : Option String
  scaler : Option Float
deriving DecidableEq, Repr

structure OptimizationSpec where
  designVariables : List VariableEntry
  constraints : List VariableEntry
  objectives : List VariableEntry
deriving DecidableEq, Repr

structure Document where
  title : String
  moduleFolders : List Path
  inputFile : Option Path
  outputFile : Option Path
  driver : Option String
  model : ModelSpec
  optimization : Option OptimizationSpec
  baseDir : Option Path
deriving Repr

def Document.resolve (d : Document) (p : Path) : Path := p.resolve d.baseDir

namespace ModelSpec

mutual

def nodeCount : ModelSpec → Nat
  | component _ => 1
  | group _ children => nodeCounts children + 1

def nodeCounts : List (String × ModelSpec) → Nat
  | [] => 0
  | (_, child) :: rest => child.nodeCount + nodeCounts rest

end

end ModelSpec

end DesignProcess
