import DesignProcess.Expectation
import DesignProcess.Value.Basic
import DesignProcess.Yaml.Value

namespace DesignProcess

def Yaml.Value.kindName : Yaml.Value → String
  | null => "null"
  | boolean _ => "boolean"
  | integer _ => "numeric"
  | float _ => "numeric"
  | string _ => "string"
  | sequence _ => "sequence"
  | mapping _ => "mapping"
  | tagged _ _ => "tagged"

namespace Value

mutual

def ofYaml (path : KeyPath) : Yaml.Value → Except Malformed Value
  | .null => .ok .null
  | .boolean b => .ok (.scalar (.boolean b))
  | .integer n =>
    match Decimal.int64? n with
    | some i => .ok (.scalar (.integer i))
    | none => .error ⟨path, .storableInteger⟩
  | .float x => .ok (.scalar (.float x))
  | .string s => .ok (.scalar (.string s))
  | .sequence items => (ofYamlItems path 0 items).map .list
  | .mapping entries => (ofYamlEntries path entries).map .table
  | .tagged tag _ => .error ⟨path, .untagged (Yaml.renderTag tag)⟩

def ofYamlItems (path : KeyPath) (i : Nat) : List Yaml.Value → Except Malformed (List Value)
  | [] => .ok []
  | v :: rest => do
    let w ← ofYaml (path.index i) v
    .ok (w :: (← ofYamlItems path (i + 1) rest))

def ofYamlEntries (path : KeyPath) :
    List (Yaml.Value × Yaml.Value) → Except Malformed (List (String × Value))
  | [] => .ok []
  | (.string k, v) :: rest => do
    let w ← ofYaml (path.key k) v
    .ok ((k, w) :: (← ofYamlEntries path rest))
  | (k, _) :: _ => .error ⟨path, .stringKeys k.kindName⟩

end

def ofYamlText (text : String) : Except Malformed Value :=
  match Yaml.read? text with
  | some v => ofYaml .root v
  | none => .error ⟨.root, .format .yaml⟩

end Value

end DesignProcess
