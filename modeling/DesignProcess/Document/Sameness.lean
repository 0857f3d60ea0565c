import DesignProcess.CallSpec.Basic
import DesignProcess.Document.Basic

namespace DesignProcess

def sameFloat? : Option Float → Option Float → Bool
  | some x, some y => x == y
  | none, none => true
  | _, _ => false

def ComponentRequest.same (a b : ComponentRequest) : Bool :=
  a.id == b.id && CallSpec.sameArguments a.options b.options

mutual

def ModelSpec.same : ModelSpec → ModelSpec → Bool
  | .component a, .component b => a.same b
  | .group s as, .group t bs => s == t && sameChildren as bs
  | _, _ => false

def sameChildren : List (String × ModelSpec) → List (String × ModelSpec) → Bool
  | [], [] => true
  | (k, a) :: as, (l, b) :: bs => k == l && a.same b && sameChildren as bs
  | _, _ => false

end

def VariableEntry.same (a b : VariableEntry) : Bool :=
  a.name == b.name && sameFloat? a.lower b.lower && sameFloat? a.upper b.upper &&
    a.units == b.units && sameFloat? a.scaler b.scaler

def sameEntries (as bs : List VariableEntry) : Bool :=
  as.length == bs.length && (as.zip bs).all fun (a, b) => a.same b

def OptimizationSpec.same (a b : OptimizationSpec) : Bool :=
  sameEntries a.designVariables b.designVariables && sameEntries a.constraints b.constraints &&
    sameEntries a.objectives b.objectives

def sameOptimization : Option OptimizationSpec → Option OptimizationSpec → Bool
  | some a, some b => a.same b
  | none, none => true
  | _, _ => false

def samePaths (ps qs : List Path) : Bool :=
  ps.length == qs.length && (ps.zip qs).all fun (p, q) => p.same q

def samePath? : Option Path → Option Path → Bool
  | some p, some q => p.same q
  | none, none => true
  | _, _ => false

def Document.same (a b : Document) : Bool :=
  a.title == b.title && samePaths a.moduleFolders b.moduleFolders &&
    samePath? a.inputFile b.inputFile && samePath? a.outputFile b.outputFile &&
    a.driver == b.driver && a.model.same b.model &&
    sameOptimization a.optimization b.optimization && samePath? a.baseDir b.baseDir

end DesignProcess
