import DesignProcess.Toml.Value

/-!
Tables while the statements that fill them are still being read. A header opens a table once;
tables that a longer path implies can still be opened, and those that dotted keys made cannot.
-/

namespace DesignProcess.Toml

inductive Form
  | implied
  | dotted
  | opened
deriving DecidableEq, Repr

inductive Slot
  | value (v : Value)
  | table (form : Form) (slots : List (String × Slot))
  | tables (items : List (List (String × Slot)))
deriving Repr

abbrev Slots := List (String × Slot)

namespace Slots

def replace (t : Slots) (k : String) (s : Slot) : Slots :=
  t.map fun entry => if entry.1 = k then (k, s) else entry

def remove (t : Slots) (k : String) : Slots := t.filter fun entry => entry.1 ≠ k

abbrev Update := Form → Slots → Option Slots

/-- Follows a path through tables and the last tables of arrays, and makes the tables that are
missing. Dotted keys do not pass through tables that a header has opened. -/
def along (dotted : Bool) (update : Update) : List String → Update
  | [], form, t => update form t
  | k :: path, _, t =>
    match t.lookup k with
    | none =>
      let form := if dotted then .dotted else .implied
      (along dotted update path form []).map fun sub => t ++ [(k, .table form sub)]
    | some (.value _) => none
    | some (.table form sub) =>
      if dotted ∧ form = .opened then none
      else (along dotted update path form sub).map fun sub => t.replace k (.table form sub)
    | some (.tables items) =>
      (along dotted update path .opened (items.getLastD [])).map fun last =>
        t.replace k (.tables (items.dropLast ++ [last]))

/-- Opens the table of a header. One that was only implied moves to the end. -/
def openTable (k : String) : Update := fun _ t =>
  match t.lookup k with
  | none => some (t ++ [(k, .table .opened [])])
  | some (.table .implied sub) => some (t.remove k ++ [(k, .table .opened sub)])
  | some _ => none

def openItem (k : String) : Update := fun _ t =>
  match t.lookup k with
  | none => some (t ++ [(k, .tables [[]])])
  | some (.tables items) => some (t.replace k (.tables (items ++ [[]])))
  | some _ => none

def assign (afterDot : Bool) (k : String) (v : Value) : Update := fun form t =>
  if afterDot ∧ form ≠ .dotted then none
  else match t.lookup k with
    | none => some (t ++ [(k, .value v)])
    | some _ => none

def withLast (path : List String) (f : List String → String → Update) : Update :=
  match path.getLast? with
  | none => fun _ _ => none
  | some k => f path.dropLast k

def header (path : List String) : Update :=
  withLast path fun before k => along false (openTable k) before

def item (path : List String) : Update :=
  withLast path fun before k => along false (openItem k) before

def assignBelow (current path : List String) (v : Value) : Update :=
  let assignment := withLast path fun before k => along true (assign (!before.isEmpty) k v) before
  along false assignment current

end Slots

mutual

def Slot.close : Slot → Value
  | .value v => v
  | .table _ slots => .table (closeSlots slots)
  | .tables items => .array (closeItems items)

def closeSlots : List (String × Slot) → List (String × Value)
  | [] => []
  | (k, s) :: rest => (k, s.close) :: closeSlots rest

def closeItems : List (List (String × Slot)) → List Value
  | [] => []
  | t :: rest => .table (closeSlots t) :: closeItems rest

end

end DesignProcess.Toml
