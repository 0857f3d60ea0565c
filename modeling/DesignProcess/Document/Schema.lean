import DesignProcess.Document.Basic
import DesignProcess.Expectation
import DesignProcess.Value.Basic

/-!
Which values are process descriptions. Of several faults the first in the order of the entries is
reported, at the place where the value breaks the schema.
-/

namespace DesignProcess

namespace Value

def string? (path : KeyPath) : Value → Except Malformed (Option String)
  | .null => .ok none
  | .scalar (.string s) => .ok (some s)
  | v => .error ⟨path, .string v.kindName⟩

def finite (path : KeyPath) (x : Float) : Except Malformed (Option Float) :=
  if x.isFinite then .ok (some x) else .error ⟨path, .finiteNumber⟩

def number? (path : KeyPath) : Value → Except Malformed (Option Float)
  | .null => .ok none
  | .scalar s =>
    match s.toFloat? with
    | some x => finite path x
    | none => .error ⟨path, .number s.kindName⟩
  | v => .error ⟨path, .number v.kindName⟩

def paths (path : KeyPath) (i : Nat) : List Value → Except Malformed (List Path)
  | [] => .ok []
  | .scalar (.string s) :: rest => (paths path (i + 1) rest).map fun ps => ⟨s⟩ :: ps
  | v :: _ => .error ⟨path.index i, .pathString v.kindName⟩

def pathList (path : KeyPath) : Value → Except Malformed (List Path)
  | .null => .ok []
  | .list items => paths path 0 items
  | v => .error ⟨path, .pathList v.kindName⟩

end Value

namespace ComponentRequest

def extend (path : KeyPath) (r : ComponentRequest) :
    String × Value → Except Malformed ComponentRequest
  | ("id", .scalar (.string s)) => .ok { r with id := s }
  | ("id", v) => .error ⟨path.key "id", .identifier v.kindName⟩
  | (k, .scalar s) => .ok { r with options := r.options ++ [(k, s)] }
  | (k, v) => .error ⟨path.key k, .scalarOption v.kindName⟩

def ofEntries (path : KeyPath) (entries : List (String × Value)) :
    Except Malformed ComponentRequest :=
  match entries.find? (·.2.isTable) with
  | some (child, _) => .error ⟨path, .identifierOrChildren child⟩
  | none => entries.foldlM (extend path) ⟨"", []⟩

end ComponentRequest

namespace ModelSpec

def isChildName (name : String) : Bool := !name.isEmpty && !name.toList.contains '.'

def hasId (entries : List (String × Value)) : Bool := entries.any (·.1 == "id")

mutual

def ofValue (path : KeyPath) : Value → Except Malformed ModelSpec
  | .table entries =>
    if hasId entries then (ComponentRequest.ofEntries path entries).map .component
    else groupOfEntries path ⟨none, none⟩ [] entries
  | .null => .error ⟨path, .node Value.null.kindName⟩
  | .scalar s => .error ⟨path, .node s.kindName⟩
  | .list items => .error ⟨path, .node (Value.list items).kindName⟩

def groupOfEntries (path : KeyPath) (solvers : SolverTexts) (children : List (String × ModelSpec)) :
    List (String × Value) → Except Malformed ModelSpec
  | [] => .ok (.group solvers children)
  | (k, v) :: rest =>
    if k = "nonlinear_solver" then do
      let text ← v.string? (path.key k)
      groupOfEntries path { solvers with nonlinear := text } children rest
    else if k = "linear_solver" then do
      let text ← v.string? (path.key k)
      groupOfEntries path { solvers with linear := text } children rest
    else if !v.isTable then .error ⟨path.key k, .childTable v.kindName⟩
    else if !isChildName k then .error ⟨path.key k, .childName⟩
    else if children.any (·.1 == k) then .error ⟨path.key k, .distinctChild⟩
    else do
      let child ← ofValue (path.key k) v
      groupOfEntries path solvers (children ++ [(k, child)]) rest

end

end ModelSpec

namespace VariableEntry

structure Draft where
  name : Option String
  lower : Option Float
  upper : Option Float
  units : Option String
  scaler : Option Float

def Draft.empty : Draft := ⟨none, none, none, none, none⟩

def nameOf (path : KeyPath) : Value → Except Malformed String
  | .scalar (.string s) => .ok s
  | v => .error ⟨path, .nameString v.kindName⟩

def Draft.extend (path : KeyPath) (d : Draft) (field : String × Value) : Except Malformed Draft :=
  let (k, v) := field
  let place := path.key k
  match k with
  | "name" => (nameOf place v).map fun s => { d with name := some s }
  | "lower" => (v.number? place).map fun x => { d with lower := x }
  | "upper" => (v.number? place).map fun x => { d with upper := x }
  | "scaler" => (v.number? place).map fun x => { d with scaler := x }
  | "units" => (v.string? place).map fun s => { d with units := s }
  | _ => .error ⟨place, .entryField k⟩

def Draft.entry (path : KeyPath) (d : Draft) : Except Malformed VariableEntry :=
  match d.name with
  | some name => .ok ⟨name, d.lower, d.upper, d.units, d.scaler⟩
  | none => .error ⟨path.key "name", .entryName⟩

def ofValue (path : KeyPath) : Value → Except Malformed VariableEntry
  | .table fields => do (← fields.foldlM (Draft.extend path) .empty).entry path
  | v => .error ⟨path, .entry v.kindName⟩

def listFrom (path : KeyPath) (i : Nat) : List Value → Except Malformed (List VariableEntry)
  | [] => .ok []
  | v :: rest => do
    let e ← ofValue (path.index i) v
    .ok (e :: (← listFrom path (i + 1) rest))

def listOfValue (path : KeyPath) : Value → Except Malformed (List VariableEntry)
  | .null => .ok []
  | .table fields => (ofValue path (.table fields)).map fun e => [e]
  | .list items => listFrom path 0 items
  | v => .error ⟨path, .entryList v.kindName⟩

end VariableEntry

namespace OptimizationSpec

inductive Field
  | designVariables
  | constraints
  | objectives
deriving DecidableEq, Repr

def Field.ofKey? : String → Option Field
  | "design_var" => some designVariables
  | "design_variables" => some designVariables
  | "constraint" => some constraints
  | "constraints" => some constraints
  | "objective" => some objectives
  | "objectives" => some objectives
  | _ => none

abbrev Draft := List (Field × List VariableEntry)

def Draft.extend (path : KeyPath) (d : Draft) (field : String × Value) : Except Malformed Draft :=
  let (k, v) := field
  match Field.ofKey? k with
  | none => .error ⟨path.key k, .optimizationField k⟩
  | some f =>
    if (d.lookup f).isSome then .error ⟨path.key k, .singleSpelling⟩
    else (VariableEntry.listOfValue (path.key k) v).map fun entries => d ++ [(f, entries)]

def Draft.entries (d : Draft) (f : Field) : List VariableEntry := (d.lookup f).getD []

def ofValue (path : KeyPath) : Value → Except Malformed (Option OptimizationSpec)
  | .null => .ok none
  | .table entries => do
    let d ← entries.foldlM (Draft.extend path) []
    .ok (some ⟨d.entries .designVariables, d.entries .constraints, d.entries .objectives⟩)
  | v => .error ⟨path, .optimization v.kindName⟩

end OptimizationSpec

namespace Document

structure Draft where
  title : Option String
  moduleFolders : List Path
  inputFile : Option Path
  outputFile : Option Path
  driver : Option String
  model : Option ModelSpec
  optimization : Option OptimizationSpec

def Draft.empty : Draft := ⟨none, [], none, none, none, none, none⟩

def Draft.extend (d : Draft) (entry : String × Value) : Except Malformed Draft :=
  let (k, v) := entry
  let path := KeyPath.root.key k
  match k with
  | "title" => (v.string? path).map fun s => { d with title := s }
  | "module_folders" => (v.pathList path).map fun ps => { d with moduleFolders := ps }
  | "input_file" => (v.string? path).map fun s => { d with inputFile := s.map Path.mk }
  | "output_file" => (v.string? path).map fun s => { d with outputFile := s.map Path.mk }
  | "driver" => (v.string? path).map fun s => { d with driver := s }
  | "model" => (ModelSpec.ofValue path v).map fun m => { d with model := some m }
  | "optimization" => (OptimizationSpec.ofValue path v).map fun o => { d with optimization := o }
  | _ => .error ⟨path, .rootKey k⟩

def Draft.document (d : Draft) : Except Malformed Document :=
  match d.model with
  | none => .error ⟨KeyPath.root.key "model", .modelTable⟩
  | some model =>
    .ok ⟨d.title.getD "", d.moduleFolders, d.inputFile, d.outputFile, d.driver, model,
      d.optimization, none⟩

def ofValue : Value → Except Malformed Document
  | .table entries => do (← entries.foldlM Draft.extend .empty).document
  | v => .error ⟨.root, .rootTable v.kindName⟩

end Document

end DesignProcess
