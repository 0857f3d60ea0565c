import DesignProcess.Manifest.Reading
import DesignProcess.Toml.Reading

namespace DesignProcess.Manifest.Toml

open DesignProcess.Toml (Value)

def record? (names : List String) (needed : Nat) : Value → Option (List (String × Value))
  | .table entries => if entries.all fun e => names.contains e.1 then some entries else none
  | .array items => if needed ≤ items.length then some (names.zip items) else none
  | _ => none

def items? : Value → Option (List Value)
  | .array items => some items
  | _ => none

def text? : Value → Option String
  | .string s => some s
  | _ => none

def isEmpty : Value → Bool
  | .table [] => true
  | .array [] => true
  | _ => false

/-- A kind by its word, or by a table that holds nothing under the word. -/
def kind? : Value → Option OptionKind
  | .string s => OptionKind.ofWord? s
  | .table [(k, v)] => if isEmpty v then OptionKind.ofWord? k else none
  | _ => none

def ofInteger? (n : Int) : Option Float :=
  if Decimal.fitsWord 64 n then some (Float.ofInt n) else none

def number? : Value → Option Float
  | .integer n => ofInteger? n
  | .float x => some x
  | _ => none

def scalar? : Value → Option Scalar
  | .boolean b => some (.boolean b)
  | .integer n =>
    match Decimal.int64? n with
    | some i => some (.integer i)
    | none => (ofInteger? n).map .float
  | .float x => some (.float x)
  | .string s => some (.string s)
  | _ => none

def encoding : Encoding Option Value where
  refuse := none
  record := record?
  items := items?
  text := text?
  kind := kind?
  number? v := (number? v).map some
  scalar? v := (scalar? v).map some

def read? (text : String) : Option (List ComponentEntry) := do
  encoding.manifest (.table (← DesignProcess.Toml.read? text))

end DesignProcess.Manifest.Toml
