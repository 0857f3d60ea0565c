import DesignProcess.AssemblyError
import DesignProcess.Component.Builtin
import DesignProcess.Dictionary
import DesignProcess.Text.Blank
import DesignProcess.Text.Search

namespace DesignProcess

structure Registration where
  identifier : String
  factory : Factory
  origin : Origin
deriving DecidableEq, Repr

structure Registry where
  registrations : Dictionary Registration

namespace Registry

def empty : Registry := ⟨.empty⟩

def get? (r : Registry) (id : String) : Option Registration := r.registrations.get? id

def contains (r : Registry) (id : String) : Bool := r.registrations.contains id

def identifiers (r : Registry) : List String := r.registrations.names

def toList (r : Registry) : List Registration := r.registrations.entries.map (·.2)

def size (r : Registry) : Nat := r.registrations.size

def register (r : Registry) (id : String) (factory : Factory) (origin : Origin) :
    Except AssemblyError Registry :=
  match r.get? id with
  | some present => .error (.duplicateIdentifier id present.origin origin)
  | none => .ok ⟨r.registrations.insert id ⟨id, factory, origin⟩⟩

def registerType (r : Registry) (origin : Origin) (t : ComponentType) :
    Except AssemblyError Registry :=
  r.register t.identifier (.declared t) origin

def builtin : Except AssemblyError Registry :=
  Builtin.catalog.foldlM (registerType · .builtIn) empty

def isPlaceholderMark (c : Char) : Bool := c == '{' || c == '}' || c == '$' || c == '%'

def isMalformed (id : List Char) : Bool :=
  id.any (fun c => Text.isBlank c || isPlaceholderMark c) || (id.splitOn '.').any (·.isEmpty)

def literal (depth : Nat) : List Char → List Char
  | [] => []
  | '{' :: r => literal (depth + 1) r
  | '}' :: r => literal (depth - 1) r
  | c :: r => if isPlaceholderMark c || depth ≠ 0 then literal depth r else c :: literal depth r

def fragments (id : List Char) : List (List Char) :=
  ((literal 0 id).splitOnP fun c => c == '.' || Text.isBlank c).filter (· ≠ [])

def maxSuggestions : Nat := 5

def suggestions (r : Registry) (id : String) : List String :=
  if isMalformed id.toList then
    let similar known := (fragments id.toList).all (Text.occursIn · (String.toList known))
    (r.identifiers.filter similar).take maxSuggestions
  else []

def resolve (r : Registry) (id : String) (path : KeyPath) : Except AssemblyError Factory :=
  match r.get? id with
  | some registration => .ok registration.factory
  | none => .error (.unknownComponent id path (r.suggestions id))

end Registry

end DesignProcess
