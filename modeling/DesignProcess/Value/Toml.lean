import DesignProcess.Expectation
import DesignProcess.Toml.Reading
import DesignProcess.Value.Basic

namespace DesignProcess

namespace Toml.Value

/-- A table that begins with this key stands for the date or time that is written under it. -/
def datetimeKey : String := "$__toml_private_datetime"

def beginsDatetime (entries : List (String × Value)) : Bool :=
  entries.head?.any (·.1 == datetimeKey)

def datetime? : List (String × Value) → Option Value
  | (_, string s) :: _ => if Atom.isDatetime s.toList then some datetime else none
  | _ => none

mutual

def stored? : Value → Option Value
  | integer n => (Decimal.int64? n).map fun _ => integer n
  | overflow => none
  | array items => (storedItems? items).map array
  | table entries =>
    if beginsDatetime entries then datetime? entries else (storedEntries? entries).map table
  | v => some v

def storedItems? : List Value → Option (List Value)
  | [] => some []
  | v :: rest => do
    let v ← v.stored?
    some (v :: (← storedItems? rest))

def storedEntries? : List (String × Value) → Option (List (String × Value))
  | [] => some []
  | (k, v) :: rest => do
    let v ← v.stored?
    some ((k, v) :: (← storedEntries? rest))

end

end Toml.Value

namespace Value

mutual

def ofToml (path : KeyPath) : Toml.Value → Except Malformed Value
  | .string s => .ok (.scalar (.string s))
  | .integer n =>
    match Decimal.int64? n with
    | some i => .ok (.scalar (.integer i))
    | none => .error ⟨.root, .format .toml⟩
  | .float x => .ok (.scalar (.float x))
  | .overflow => .error ⟨.root, .format .toml⟩
  | .boolean b => .ok (.scalar (.boolean b))
  | .datetime => .error ⟨path, .noDatetime⟩
  | .array items => (ofTomlItems path 0 items).map .list
  | .table entries => (ofTomlEntries path entries).map .table

def ofTomlItems (path : KeyPath) (i : Nat) : List Toml.Value → Except Malformed (List Value)
  | [] => .ok []
  | v :: rest => do
    let w ← ofToml (path.index i) v
    .ok (w :: (← ofTomlItems path (i + 1) rest))

def ofTomlEntries (path : KeyPath) :
    List (String × Toml.Value) → Except Malformed (List (String × Value))
  | [] => .ok []
  | (k, v) :: rest => do
    let w ← ofToml (path.key k) v
    .ok ((k, w) :: (← ofTomlEntries path rest))

end

def ofTomlText (text : String) : Except Malformed Value :=
  match (Toml.read? text).bind Toml.Value.storedEntries? with
  | some entries => ofToml .root (.table entries)
  | none => .error ⟨.root, .format .toml⟩

end Value

end DesignProcess
