import DesignProcess.Yaml.Layout

namespace DesignProcess.Yaml

structure Marks where
  anchor : Option Nat
  tag : Option Tag
deriving DecidableEq, Repr

inductive Node
  | alias (number : Nat)
  | scalar (marks : Marks) (style : Style) (text : String)
  | sequence (marks : Marks) (items : List Node)
  | mapping (marks : Marks) (entries : List (Node × Node))
deriving Repr

namespace Node

def empty : Node := .scalar ⟨none, none⟩ .plain ""

/-- The tokens that are left, the numbers of the anchors so far, and the prefixes that tag handles
stand for. -/
structure State where
  tokens : List Token
  anchors : List (String × Nat)
  handles : List (String × Tag)

abbrev Parse := StateT State Option

def refuse {α : Type} : Parse α := fun _ => none

def peek : Parse Token := fun s => s.tokens.head?.map fun t => (t, s)

def skip : Parse Unit := fun s => some ((), { s with tokens := s.tokens.tail })

def pass (t : Token) : Parse Unit := do
  if (← peek) = t then skip else refuse

/-- An anchor is numbered by how many names have been used before it. A name that is used again
stands for the later node. -/
def declare (name : String) : Parse Nat := fun s =>
  let number := s.anchors.length
  some (number, { s with anchors := (name, number) :: s.anchors.filter (·.1 ≠ name) })

def aliasNumber (name : String) : Parse Nat := fun s =>
  (s.anchors.lookup name).map fun n => (n, s)

def fullTag (handle : String) (suffix : Tag) : Parse Tag := fun s =>
  if handle.isEmpty then some (suffix, s)
  else (s.handles.lookup handle).map fun start => (start.append suffix, s)

def marks : Parse Marks := do
  match ← peek with
  | .anchor name =>
    skip
    match ← peek with
    | .tag handle suffix =>
      skip
      let tag ← fullTag handle suffix
      let number ← declare name
      pure ⟨some number, some tag⟩
    | _ =>
      let number ← declare name
      pure ⟨some number, none⟩
  | .tag handle suffix =>
    skip
    match ← peek with
    | .anchor name =>
      skip
      let tag ← fullTag handle suffix
      let number ← declare name
      pure ⟨some number, some tag⟩
    | _ =>
      let tag ← fullTag handle suffix
      pure ⟨none, some tag⟩
  | _ => pure ⟨none, none⟩

def markedOnly (m : Marks) : Parse Node :=
  if m.anchor.isSome || m.tag.isSome then pure (.scalar m .plain "") else refuse

/-- Where a node stands. In a mapping the items of a sequence need no further indentation. -/
inductive Place
  | flow
  | block
  | entry
deriving DecidableEq

def endsEntry (t : Token) : Bool := t = .key ∨ t = .value ∨ t = .blockEnd

def endsItem (t : Token) : Bool := t = .blockEntry ∨ t = .blockEnd

def endsFlow (close t : Token) : Bool := t = .flowEntry ∨ t = close

mutual

def node (fuel : Nat) (place : Place) : Parse Node :=
  match fuel with
  | 0 => refuse
  | fuel + 1 => do
    match ← peek with
    | .alias name =>
      skip
      pure (.alias (← aliasNumber name))
    | _ => content fuel place (← marks)

def content (fuel : Nat) (place : Place) (m : Marks) : Parse Node :=
  match fuel with
  | 0 => refuse
  | fuel + 1 => do
    match ← peek with
    | .scalar style text =>
      skip
      pure (.scalar m style text)
    | .flowSequence =>
      skip
      pure (.sequence m (← flowItems fuel true))
    | .flowMapping =>
      skip
      pure (.mapping m (← flowEntries fuel true))
    | .blockEntry =>
      if place = .entry then pure (.sequence m (← looseItems fuel)) else markedOnly m
    | .blockSequence =>
      if place = .flow then markedOnly m
      else
        skip
        pure (.sequence m (← blockItems fuel))
    | .blockMapping =>
      if place = .flow then markedOnly m
      else
        skip
        pure (.mapping m (← blockEntries fuel))
    | _ => markedOnly m

def blockItems (fuel : Nat) : Parse (List Node) :=
  match fuel with
  | 0 => refuse
  | fuel + 1 => do
    match ← peek with
    | .blockEntry =>
      skip
      let item ← if endsItem (← peek) then pure empty else node fuel .block
      pure (item :: (← blockItems fuel))
    | .blockEnd =>
      skip
      pure []
    | _ => refuse

def looseItems (fuel : Nat) : Parse (List Node) :=
  match fuel with
  | 0 => refuse
  | fuel + 1 => do
    match ← peek with
    | .blockEntry =>
      skip
      let next ← peek
      let item ← if endsItem next || endsEntry next then pure empty else node fuel .block
      pure (item :: (← looseItems fuel))
    | _ => pure []

def blockEntries (fuel : Nat) : Parse (List (Node × Node)) :=
  match fuel with
  | 0 => refuse
  | fuel + 1 => do
    match ← peek with
    | .key =>
      skip
      let k ← if endsEntry (← peek) then pure empty else node fuel .entry
      let v ← blockValue fuel
      pure ((k, v) :: (← blockEntries fuel))
    | .blockEnd =>
      skip
      pure []
    | _ => refuse

def blockValue (fuel : Nat) : Parse Node :=
  match fuel with
  | 0 => refuse
  | fuel + 1 => do
    match ← peek with
    | .value =>
      skip
      if endsEntry (← peek) then pure empty else node fuel .entry
    | _ => pure empty

def flowItems (fuel : Nat) (first : Bool) : Parse (List Node) :=
  match fuel with
  | 0 => refuse
  | fuel + 1 => do
    if (← peek) = .flowSequenceEnd then
      skip
      pure []
    else
      if !first then pass .flowEntry
      match ← peek with
      | .flowSequenceEnd =>
        skip
        pure []
      | .key =>
        skip
        let pair ← flowPair fuel
        pure (pair :: (← flowItems fuel false))
      | _ =>
        let item ← node fuel .flow
        pure (item :: (← flowItems fuel false))

def flowPair (fuel : Nat) : Parse Node :=
  match fuel with
  | 0 => refuse
  | fuel + 1 => do
    let next ← peek
    let k ←
      if next = .value || endsFlow .flowSequenceEnd next then do
        skip
        pure empty
      else node fuel .flow
    let v ← flowValue fuel .flowSequenceEnd
    pure (.mapping ⟨none, none⟩ [(k, v)])

def flowValue (fuel : Nat) (close : Token) : Parse Node :=
  match fuel with
  | 0 => refuse
  | fuel + 1 => do
    match ← peek with
    | .value =>
      skip
      if endsFlow close (← peek) then pure empty else node fuel .flow
    | _ => pure empty

def flowEntries (fuel : Nat) (first : Bool) : Parse (List (Node × Node)) :=
  match fuel with
  | 0 => refuse
  | fuel + 1 => do
    if (← peek) = .flowMappingEnd then
      skip
      pure []
    else
      if !first then pass .flowEntry
      match ← peek with
      | .flowMappingEnd =>
        skip
        pure []
      | .key =>
        skip
        let next ← peek
        let k ←
          if next = .value || endsFlow .flowMappingEnd next then pure empty else node fuel .flow
        let v ← flowValue fuel .flowMappingEnd
        pure ((k, v) :: (← flowEntries fuel false))
      | _ =>
        let k ← node fuel .flow
        pure ((k, empty) :: (← flowEntries fuel false))

end

def directives (fuel : Nat) (version : Bool) : Parse Unit :=
  match fuel with
  | 0 => refuse
  | fuel + 1 => do
    match ← peek with
    | .version major minor =>
      if version || major ≠ 1 || (minor ≠ 1 && minor ≠ 2) then refuse
      else
        skip
        directives fuel true
    | .tagHandle handle start =>
      if (← get).handles.any (·.1 = handle) then refuse
      else
        skip
        modify fun s => { s with handles := s.handles ++ [(handle, start)] }
        directives fuel version
    | _ => pure ()

def defaultHandles : List (String × Tag) := [("!", .ofText "!"), ("!!", .core "")]

def addDefaultHandles : Parse Unit :=
  modify fun s => { s with handles := s.handles ++ defaultHandles }

def isBetween : Token → Bool
  | .version _ _ | .tagHandle _ _ | .documentStart | .documentEnd | .streamEnd => true
  | _ => false

def skipEnds (fuel : Nat) : Parse Unit :=
  match fuel with
  | 0 => refuse
  | fuel + 1 => do
    if (← peek) = .documentEnd then
      skip
      skipEnds fuel

def document (fuel : Nat) : Parse Node := do
  let next ← peek
  let root ←
    if next = .streamEnd then pure empty
    else if isBetween next && next ≠ .documentEnd then do
      directives fuel false
      addDefaultHandles
      pass .documentStart
      if isBetween (← peek) then pure empty else node fuel .block
    else do
      addDefaultHandles
      node fuel .block
  skipEnds fuel
  pass .streamEnd
  pure root

def anchored : Node → List (Nat × Node)
  | .alias _ => []
  | .scalar m style text => (m.anchor.map fun n => (n, .scalar m style text)).toList
  | .sequence m items =>
    (m.anchor.map fun n => (n, .sequence m items)).toList ++ anchoredItems items
  | .mapping m entries =>
    (m.anchor.map fun n => (n, .mapping m entries)).toList ++ anchoredEntries entries
where
  anchoredItems : List Node → List (Nat × Node)
    | [] => []
    | n :: rest => anchored n ++ anchoredItems rest
  anchoredEntries : List (Node × Node) → List (Nat × Node)
    | [] => []
    | (k, v) :: rest => anchored k ++ anchored v ++ anchoredEntries rest

def places : Node → Nat
  | .alias _ => 1
  | .scalar _ _ _ => 1
  | .sequence _ items => placesOfItems items + 2
  | .mapping _ entries => placesOfEntries entries + 2
where
  placesOfItems : List Node → Nat
    | [] => 0
    | n :: rest => places n + placesOfItems rest
  placesOfEntries : List (Node × Node) → Nat
    | [] => 0
    | (k, v) :: rest => places k + places v + placesOfEntries rest

end Node

structure Tree where
  root : Node
  anchored : List (Nat × Node)
deriving Repr

/-- Of several nodes under one number an alias stands for the last. -/
def Tree.target? (t : Tree) (number : Nat) : Option Node :=
  (t.anchored.reverse.lookup number)

def Tree.limit (t : Tree) : Nat := 100 * t.root.places

def Tree.ofText? (text : String) : Option Tree := do
  let tokens ← tokens? text
  let (root, _) ← Node.document (6 * tokens.size + 6) ⟨tokens.toList, [], []⟩
  some ⟨root, root.anchored⟩

end DesignProcess.Yaml
