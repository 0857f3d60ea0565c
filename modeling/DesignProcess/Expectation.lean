import DesignProcess.CallSpec.Error
import DesignProcess.Document.Format
import DesignProcess.Files.System
import DesignProcess.KeyPath
import DesignProcess.Solver.Kind

namespace DesignProcess

/-- Stands for what the reader of a format says about a text. -/
def parserDetail : String := "<parser detail>"

inductive Expectation
  | format (f : Format)
  | extension (path : Path)
  | readable (path : Path) (fault : FileFault)
  | noDatetime
  | storableInteger
  | stringKeys (found : String)
  | untagged (tag : String)
  | rootTable (found : String)
  | rootKey (key : String)
  | modelTable
  | string (found : String)
  | pathString (found : String)
  | pathList (found : String)
  | node (found : String)
  | identifierOrChildren (child : String)
  | identifier (found : String)
  | scalarOption (found : String)
  | childTable (found : String)
  | childName
  | distinctChild
  | optimization (found : String)
  | optimizationField (key : String)
  | singleSpelling
  | entryList (found : String)
  | entry (found : String)
  | entryField (key : String)
  | entryName
  | nameString (found : String)
  | number (found : String)
  | finiteNumber
  | solver (error : CallSpec.Error)
  | knownSolver (slot : SolverSlot) (found : String)
  | solverInSlot (slot : SolverSlot) (found : SolverKind)
  | driver (error : CallSpec.Error)
  | oneObjective (found : Nat)
deriving DecidableEq, Repr

namespace Expectation

def orFound (expected found : String) : String := expected ++ ", found " ++ found

def describe : Expectation → String
  | format f => s!"valid {f.name} ({parserDetail})"
  | extension path => s!"a '.toml', '.yaml' or '.yml' file extension (got '{path.text}')"
  | readable path fault => s!"a readable configuration file at '{path.text}' ({fault.message})"
  | noDatetime => "a string, number, boolean, array or table (datetimes are not supported)"
  | storableInteger => "an integer that fits in 64 signed bits"
  | stringKeys found => s!"string keys only (found a {found} key)"
  | untagged tag => s!"an untagged value (found tag {tag})"
  | rootTable found => orFound "a table at the top level" found
  | rootKey key =>
    "one of the top-level keys (title, module_folders, input_file, output_file, driver, model, " ++
      s!"optimization), not '{key}'"
  | modelTable => "a required 'model' table"
  | string found => orFound "a string" found
  | pathString found => orFound "a path string" found
  | pathList found => orFound "a list of paths" found
  | node found => orFound "a table describing a group or a component" found
  | identifierOrChildren child =>
    s!"either an 'id' or child nodes, not both ('id' and child '{child}' both present)"
  | identifier found => orFound "a string identifier" found
  | scalarOption found => orFound "a scalar option value" found
  | childTable found =>
    orFound "a child table (scalar options are only allowed on nodes with an 'id')" found
  | childName => "a non-empty child name without '.'"
  | distinctChild => "a child name unique within its group"
  | optimization found => orFound "an optimization table" found
  | optimizationField key =>
    s!"one of design_var(iables), constraint(s), objective(s), not '{key}'"
  | singleSpelling =>
    "a single spelling of each optimization field (singular and plural forms both present)"
  | entryList found => orFound "a list of variable entries" found
  | entry found => orFound "a variable entry table" found
  | entryField key => s!"one of name, lower, upper, units, scaler, not '{key}'"
  | entryName => "a required 'name'"
  | nameString found => orFound "a variable name string" found
  | number found => orFound "a number" found
  | finiteNumber => "a finite number"
  | solver error =>
    s!"a solver specification such as 'om.NonlinearBlockGS(maxiter=10)' ({error.render})"
  | knownSolver slot found =>
    s!"a known {slot.name} solver, one of " ++
      String.intercalate ", " (SolverKind.namesIn slot) ++ s!" (found '{found}')"
  | solverInSlot slot found =>
    s!"a {slot.name} solver, but '{found.name}' is a {found.slot.name} solver"
  | driver error =>
    "a driver specification such as \"om.ScipyOptimizeDriver(optimizer='SLSQP')\" " ++
      s!"({error.render})"
  | oneObjective found => s!"exactly one objective, found {found}"

end Expectation

structure Malformed where
  path : KeyPath
  expected : Expectation
deriving DecidableEq, Repr

def Malformed.message (m : Malformed) : String :=
  s!"Malformed configuration at {m.path.render}: expected {m.expected.describe}"

end DesignProcess
