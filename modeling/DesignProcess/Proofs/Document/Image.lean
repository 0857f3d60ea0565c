import DesignProcess.Proofs.Document.Conformance

namespace DesignProcess.Value

open OptimizationSpec (Field)

def text? : Value → Option String
  | .scalar (.string s) => some s
  | _ => none

def float? : Value → Option Float
  | .scalar (.integer n) => some (Float.ofInt n.toInt)
  | .scalar (.float x) => some x
  | _ => none

def folders : Value → List Path
  | .list items => items.filterMap fun item => item.text?.map Path.mk
  | _ => []

def scalar? : Value → Option Scalar
  | .scalar s => some s
  | _ => none

def textAt (entries : List (String × Value)) (key : String) : Option String :=
  (entries.lookup key).bind text?

def floatAt (entries : List (String × Value)) (key : String) : Option Float :=
  (entries.lookup key).bind float?

def request (entries : List (String × Value)) : ComponentRequest where
  id := (textAt entries "id").getD ""
  options := (entries.filter (·.1 ≠ "id")).filterMap fun e => e.2.scalar?.map fun s => (e.1, s)

def solverTexts (entries : List (String × Value)) : SolverTexts :=
  ⟨textAt entries "nonlinear_solver", textAt entries "linear_solver"⟩

mutual

def node : Value → ModelSpec
  | .table entries =>
    if (entries.lookup "id").isSome then .component (request entries)
    else .group (solverTexts entries) (children entries)
  | _ => .group ⟨none, none⟩ []

def children : List (String × Value) → List (String × ModelSpec)
  | [] => []
  | (k, v) :: rest => if IsSolverKey k then children rest else (k, v.node) :: children rest

end

def variableEntry (fields : List (String × Value)) : VariableEntry where
  name := (textAt fields "name").getD ""
  lower := floatAt fields "lower"
  upper := floatAt fields "upper"
  units := textAt fields "units"
  scaler := floatAt fields "scaler"

def entry : Value → VariableEntry
  | .table fields => variableEntry fields
  | _ => variableEntry []

def entryList : Value → List VariableEntry
  | .table fields => [variableEntry fields]
  | .list items => items.map entry
  | _ => []

def fieldEntries (entries : List (String × Value)) (f : Field) : List VariableEntry :=
  (((entries.lookup f.singular).or (entries.lookup f.plural)).map entryList).getD []

def optimization? : Value → Option OptimizationSpec
  | .table entries => some ⟨fieldEntries entries .designVariables,
      fieldEntries entries .constraints, fieldEntries entries .objectives⟩
  | _ => none

def document : Value → Document
  | .table entries => {
      title := (textAt entries "title").getD ""
      moduleFolders := ((entries.lookup "module_folders").map folders).getD []
      inputFile := (textAt entries "input_file").map Path.mk
      outputFile := (textAt entries "output_file").map Path.mk
      driver := textAt entries "driver"
      model := ((entries.lookup "model").map node).getD (.group ⟨none, none⟩ [])
      optimization := (entries.lookup "optimization").bind optimization?
      baseDir := none }
  | _ => ⟨"", [], none, none, none, .group ⟨none, none⟩ [], none, none⟩

end DesignProcess.Value
