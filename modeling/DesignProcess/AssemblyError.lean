import DesignProcess.Component.Basic
import DesignProcess.Expectation
import DesignProcess.Manifest.Basic

namespace DesignProcess

inductive Origin
  | builtIn
  | discovered (manifest : Path)
deriving DecidableEq, Repr

def Origin.describe : Origin → String
  | builtIn => "built-in"
  | discovered manifest => s!"discovered in '{manifest.text}'"

inductive Role
  | designVariable
  | constraint
  | objective
deriving DecidableEq, Repr

def Role.name : Role → String
  | designVariable => "design variable"
  | constraint => "constraint"
  | objective => "objective"

namespace Manifest.Fault

def message : Fault → String
  | missingFolder path => s!"Folder '{path.text}' does not exist"
  | notFolder path => s!"'{path.text}' is not a directory"
  | unreadable path fault => s!"File I/O error for '{path.text}': {fault.message}"
  | ungrammatical path format => s!"{format.name} parsing error for '{path.text}': {parserDetail}"
  | badDefault path component option reason =>
    s!"Invalid default for option '{option}' of component '{component}' in '{path.text}': " ++
      reason.message
  | invalid path flaw => s!"Invalid manifest '{path.text}': {flaw.message}"

def cause? : Fault → Option String
  | unreadable _ fault => some fault.message
  | ungrammatical _ _ => some parserDetail
  | badDefault _ _ _ reason => some reason.message
  | _ => none

end Manifest.Fault

inductive AssemblyError
  | malformed (m : Malformed)
  | duplicateIdentifier (id : String) (existing incoming : Origin)
  | discovery (folder : Path) (fault : Manifest.Fault)
  | unknownComponent (id : String) (path : KeyPath) (suggestions : List String)
  | unsupportedOption (id option : String) (path : KeyPath)
  | invalidOption (id option : String) (path : KeyPath) (reason : ValueFault)
  | creationFailed (id : String) (path : KeyPath) (fault : CreationFault)
  | unknownVariable (name : String) (role : Role)
  | invalidBounds (name : String) (role : Role) (lower upper : Float)
deriving DecidableEq, Repr

namespace AssemblyError

def kindName : AssemblyError → String
  | malformed _ => "MalformedConfiguration"
  | duplicateIdentifier _ _ _ => "DuplicateIdentifier"
  | discovery _ _ => "DiscoveryError"
  | unknownComponent _ _ _ => "UnknownComponent"
  | unsupportedOption _ _ _ => "UnsupportedOption"
  | invalidOption _ _ _ _ => "InvalidOptionValue"
  | creationFailed _ _ _ => "ComponentConstructionFailed"
  | unknownVariable _ _ => "UnknownVariable"
  | invalidBounds _ _ _ _ => "InvalidBounds"

def location : AssemblyError → String
  | malformed m => m.path.render
  | duplicateIdentifier id _ _ => id
  | discovery folder _ => folder.text
  | unknownComponent _ path _ => path.render
  | unsupportedOption _ _ path => path.render
  | invalidOption _ _ path _ => path.render
  | creationFailed _ path _ => path.render
  | unknownVariable name _ => name
  | invalidBounds name _ _ _ => name

def hint (suggestions : List String) : String :=
  if suggestions.isEmpty then ""
  else " (did you mean one of: " ++ String.intercalate ", " suggestions ++ "?)"

def message : AssemblyError → String
  | malformed m => m.message
  | duplicateIdentifier id existing incoming =>
    s!"Component identifier '{id}' is already registered ({existing.describe}); " ++
      s!"refusing registration from {incoming.describe}"
  | discovery folder fault =>
    s!"Component discovery failed for module folder '{folder.text}': {fault.message}"
  | unknownComponent id path suggestions =>
    s!"Unknown component '{id}' at {path.render}{hint suggestions}"
  | unsupportedOption id option path =>
    s!"Component '{id}' at {path.render} does not support option '{option}'"
  | invalidOption id option path reason =>
    s!"Invalid value for option '{option}' of component '{id}' at {path.render}: " ++
      reason.message
  | creationFailed id path fault =>
    s!"Construction of component '{id}' at {path.render} failed: {fault.message}"
  | unknownVariable name role =>
    s!"Unknown variable '{name}' referenced as {role.name}: " ++
      "no component in the model declares it"
  | invalidBounds name role lower upper =>
    s!"Invalid bounds for {role.name} '{name}': lower ({Decimal.plain.render lower}) " ++
      s!"exceeds upper ({Decimal.plain.render upper})"

def causes : AssemblyError → List String
  | discovery _ fault => fault.message :: fault.cause?.toList
  | creationFailed _ _ fault => fault.message :: fault.cause.toList
  | _ => []

def render (e : AssemblyError) : String :=
  s!"error[{e.kindName}] at {e.location}: {e.message}" ++
    String.join (e.causes.map fun cause => s!"\n  caused by: {cause}")

end AssemblyError

def orMalformed {α : Type} : Except Malformed α → Except AssemblyError α
  | .ok a => .ok a
  | .error m => .error (.malformed m)

end DesignProcess
