import DesignProcess.Manifest.Reading
import DesignProcess.Yaml.Value

/-!
Manifests in YAML. Where the reader knows what to expect, the look of a plain scalar does not
matter, and an empty one may stand for an empty list or record.
-/

namespace DesignProcess.Manifest.Yaml

open DesignProcess.Yaml

def refuse {α : Type} : Counted α := fun _ => none

def certain {α : Type} (answer : Option α) : Counted α := fun count =>
  answer.map fun a => (a, count)

def isNothing (style : Style) (text : String) : Bool := style = .plain && text.isEmpty

def items (t : Tree) (n : Node) : Counted (List Node) := do
  match ← t.follow n with
  | .sequence _ items => return items
  | .scalar _ style text => if isNothing style text then return [] else refuse
  | _ => refuse

def text (t : Tree) (n : Node) : Counted String := do
  match ← t.follow n with
  | .scalar _ _ text => return text
  | _ => refuse

def fields (t : Tree) (names : List String) :
    List (String × Node) → List (Node × Node) → Counted (List (String × Node))
  | found, [] => return found
  | found, (k, v) :: rest => do
    let name ← text t k
    if names.contains name && !found.any (·.1 == name) then
      fields t names (found ++ [(name, v)]) rest
    else refuse

def record (t : Tree) (names : List String) (n : Node) : Counted (List (String × Node)) := do
  match ← t.follow n with
  | .mapping _ entries => fields t names [] entries
  | .scalar _ style text => if isNothing style text then return [] else refuse
  | _ => refuse

def kindOf? (m : Marks) (style : Style) (text : String) : Option OptionKind :=
  match m.tag.bind Tag.name? with
  | none => OptionKind.ofWord? text
  | some tag =>
    if style = .plain ∧ (text.isEmpty ∨ Look.isNull text.toList) then OptionKind.ofWord? tag
    else none

def kind (t : Tree) (n : Node) : Counted OptionKind := do
  match ← t.follow n with
  | .scalar m style text => certain (kindOf? m style text)
  | _ => refuse

def isAbsent? (m : Marks) (style : Style) (text : String) : Option Bool :=
  if style ≠ .plain then some false
  else match m.tag with
    | none => some (text.isEmpty || Look.isNull text.toList)
    | some tag =>
      if tag = .core "null" then
        if Look.isNull text.toList then some true else none
      else some false

def optional {α : Type} (t : Tree) (read : Node → Counted α) (n : Node) : Counted (Option α) := do
  match ← t.follow n with
  | .scalar m style text =>
    match isAbsent? m style text with
    | some true => return none
    | some false => some <$> read (.scalar m style text)
    | none => refuse
  | n => some <$> read n

def numberOf? (m : Marks) (style : Style) (text : String) : Option Float :=
  if style = .plain ∨ (style = .literal ∧ m.tag = some (.core "float")) then
    Look.float? text.toList
  else none

def number (t : Tree) (n : Node) : Counted Float := do
  match ← t.follow n with
  | .scalar m style text => certain (numberOf? m style text)
  | _ => refuse

def scalar (t : Tree) (n : Node) : Counted Scalar := do
  match ← t.value maxDepth n with
  | .boolean b => return .boolean b
  | .integer n => return (match Decimal.int64? n with
    | some i => .integer i
    | none => .float (Float.ofInt n))
  | .float x => return .float x
  | .string s => return .string s
  | _ => refuse

def encoding (t : Tree) : Encoding Counted Node where
  refuse := refuse
  record names _ n := record t names n
  items := items t
  text := text t
  kind := kind t
  number? := optional t (number t)
  scalar? := optional t (scalar t)

def read? (text : String) : Option (List ComponentEntry) := do
  let tree ← Tree.ofText? text
  let (components, _) ← (encoding tree).manifest tree.root 0
  some components

end DesignProcess.Manifest.Yaml
