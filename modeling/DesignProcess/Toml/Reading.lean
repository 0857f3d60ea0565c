import DesignProcess.Toml.Statement
import DesignProcess.Toml.Table

namespace DesignProcess.Toml

namespace Value

def quoted (multi single : List Char → Option (List Char × List Char)) (quote : Char)
    (cs : List Char) : Option (Value × List Char) :=
  let cut := match cs with
    | a :: b :: r => if a = quote ∧ b = quote then multi (Quoted.dropLineEnd r) else single cs
    | _ => single cs
  cut.map fun (content, rest) => (.string (String.ofList content), rest)

def atom (cs : List Char) : Option (Value × List Char) :=
  let (text, rest) := Atom.cut cs
  (Atom.value? text).map fun v => (v, rest)

mutual

/-- The value at the head of a text. The fuel exceeds the length of the text. -/
def read (fuel depth : Nat) (cs : List Char) : Option (Value × List Char) :=
  match fuel, cs with
  | 0, _ => none
  | _, [] => none
  | fuel + 1, c :: r =>
    if c = '"' then quoted (Quoted.basicLines false) Quoted.basic '"' r
    else if c = '\'' then quoted Quoted.literalLines Quoted.literal '\'' r
    else if c = '[' then
      match depth with
      | 0 => none
      | depth + 1 => do
        let (items, rest) ← readItems fuel depth (← Statement.gaps false r)
        some (.array items, rest)
    else if c = '{' then
      match depth with
      | 0 => none
      | depth + 1 => do
        let (slots, rest) ← readPairs fuel depth [] (← Statement.gaps false r)
        some (.table (closeSlots slots), rest)
    else atom (c :: r)

def readItems (fuel depth : Nat) (cs : List Char) : Option (List Value × List Char) :=
  match fuel, cs with
  | 0, _ => none
  | _, ']' :: r => some ([], r)
  | fuel + 1, cs => do
    let (v, rest) ← read fuel depth cs
    match ← Statement.gaps false rest with
    | ',' :: r =>
      let (vs, rest) ← readItems fuel depth (← Statement.gaps false r)
      some (v :: vs, rest)
    | ']' :: r => some ([v], r)
    | _ => none

def readPairs (fuel depth : Nat) (slots : Slots) (cs : List Char) : Option (Slots × List Char) :=
  match fuel, cs with
  | 0, _ => none
  | _, '}' :: r => some (slots, r)
  | fuel + 1, cs => do
    let (path, rest) ← Statement.key? fuel cs
    match ← Statement.gaps false rest with
    | '=' :: r =>
      let (v, rest) ← read fuel depth (← Statement.gaps false r)
      let slots ← Slots.assignBelow [] path v .opened slots
      match ← Statement.gaps false rest with
      | ',' :: r => readPairs fuel depth slots (← Statement.gaps false r)
      | '}' :: r => some (slots, r)
      | _ => none
    | _ => none

end

end Value

namespace Statement

def bracketed (fuel : Nat) (cs : List Char) : Option (List String × List Char) := do
  let (path, rest) ← key? fuel (spaces cs)
  match spaces rest with
  | ']' :: r => some (path, r)
  | _ => none

def read (fuel : Nat) : List Char → Option (Statement × List Char)
  | '[' :: '[' :: r => do
    let (path, rest) ← bracketed fuel r
    match rest with
    | ']' :: r => some (.item path, ← lineEnd false r)
    | _ => none
  | '[' :: r => do
    let (path, rest) ← bracketed fuel r
    some (.header path, ← lineEnd false rest)
  | cs => do
    let (path, rest) ← key? fuel cs
    match spaces rest with
    | '=' :: r =>
      let (v, rest) ← Value.read fuel maxDepth (spaces r)
      some (.assign path v, ← lineEnd false rest)
    | _ => none

def readAll : Nat → List Char → Option (List Statement)
  | 0, _ => none
  | fuel + 1, cs => do
    match ← gaps false cs with
    | [] => some []
    | cs =>
      let (s, rest) ← read fuel cs
      (← readAll fuel rest) |> fun ss => some (s :: ss)

end Statement

structure Draft where
  current : List String
  slots : Slots

def Draft.extend (d : Draft) : Statement → Option Draft
  | .header path => (Slots.header path .opened d.slots).map fun t => ⟨path, t⟩
  | .item path => (Slots.item path .opened d.slots).map fun t => ⟨path, t⟩
  | .assign path v =>
    (Slots.assignBelow d.current path v .opened d.slots).map fun t => ⟨d.current, t⟩

def dropMark : List Char → List Char
  | '\ufeff' :: r => r
  | cs => cs

def read? (text : String) : Option (List (String × Value)) := do
  let cs := dropMark text.toList
  let statements ← Statement.readAll (cs.length + 2) cs
  let draft ← statements.foldlM Draft.extend ⟨[], []⟩
  some (closeSlots draft.slots)

end DesignProcess.Toml
