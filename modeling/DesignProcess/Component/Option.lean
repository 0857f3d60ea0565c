import DesignProcess.Scalar

namespace DesignProcess

inductive OptionKind
  | boolean
  | integer
  | float
  | string
deriving DecidableEq, Repr

namespace OptionKind

def name : OptionKind → String
  | boolean => "boolean"
  | integer => "integer"
  | float => "float"
  | string => "string"

def ofWord? : String → Option OptionKind
  | "bool" => some boolean
  | "integer" => some integer
  | "float" => some float
  | "string" => some string
  | _ => none

end OptionKind

def crossedBounds? (lower upper : Option Float) : Option (Float × Float) :=
  match lower, upper with
  | some l, some u => if u < l then some (l, u) else none
  | _, _ => none

theorem crossedBounds?_eq_some_iff {lower upper : Option Float} {l u : Float} :
    crossedBounds? lower upper = some (l, u) ↔ lower = some l ∧ upper = some u ∧ u < l := by
  cases lower with
  | none => simp [crossedBounds?]
  | some l' =>
    cases upper with
    | none => simp [crossedBounds?]
    | some u' =>
      simp only [crossedBounds?, Option.ite_none_right_eq_some, Option.some.injEq, Prod.mk.injEq]
      constructor
      · rintro ⟨h, rfl, rfl⟩
        exact ⟨rfl, rfl, h⟩
      · rintro ⟨rfl, rfl, h⟩
        exact ⟨h, rfl, rfl⟩

theorem crossedBounds?_eq_none_iff {lower upper : Option Float} :
    crossedBounds? lower upper = none ↔ ∀ l u, lower = some l → upper = some u → ¬u < l := by
  simp only [Option.eq_none_iff_forall_ne_some, Prod.forall, ne_eq, crossedBounds?_eq_some_iff,
    not_and]

inductive ValueFault
  | wrongKind (expected : OptionKind) (found : Scalar)
  | notFinite (value : Float)
  | belowMinimum (value lower : Float)
  | aboveMaximum (value upper : Float)
  | notAllowed (value : String) (allowed : List String)
deriving DecidableEq, Repr

def ValueFault.message : ValueFault → String
  | wrongKind expected found =>
    s!"expected {expected.name}, found {found.kindName} {found.render}"
  | notFinite value => s!"{Decimal.plain.render value} is not a finite number"
  | belowMinimum value lower =>
    s!"{Decimal.plain.render value} is below the minimum {Decimal.plain.render lower}"
  | aboveMaximum value upper =>
    s!"{Decimal.plain.render value} is above the maximum {Decimal.plain.render upper}"
  | notAllowed value allowed =>
    s!"'{value}' is not one of: " ++ String.intercalate ", " allowed

structure OptionRule where
  name : String
  kind : OptionKind
  default : Option Scalar
  lower : Option Float
  upper : Option Float
  allowed : List String
deriving DecidableEq, Repr

namespace OptionRule

def plain (name : String) (kind : OptionKind) : OptionRule := ⟨name, kind, none, none, none, []⟩

def fit : OptionKind → Scalar → Except ValueFault Scalar
  | .boolean, .boolean b => .ok (.boolean b)
  | .integer, .integer n => .ok (.integer n)
  | .float, .float x => .ok (.float x)
  | .float, .integer n => .ok (.float (Float.ofInt n.toInt))
  | .string, .string s => .ok (.string s)
  | expected, found => .error (.wrongKind expected found)

def checkNumber (r : OptionRule) (x : Float) : Except ValueFault Unit :=
  if !x.isFinite then .error (.notFinite x)
  else match r.lower.filter (x < ·), r.upper.filter (· < x) with
    | some l, _ => .error (.belowMinimum x l)
    | none, some u => .error (.aboveMaximum x u)
    | none, none => .ok ()

def checkString (r : OptionRule) (s : String) : Except ValueFault Unit :=
  if r.allowed.isEmpty || r.allowed.contains s then .ok () else .error (.notAllowed s r.allowed)

def checkStored (r : OptionRule) : Scalar → Except ValueFault Unit
  | .boolean _ => .ok ()
  | .integer n => r.checkNumber (Float.ofInt n.toInt)
  | .float x => r.checkNumber x
  | .string s => r.checkString s

def check (r : OptionRule) (v : Scalar) : Except ValueFault Scalar := do
  let stored ← fit r.kind v
  r.checkStored stored
  return stored

end OptionRule

inductive OptionFault
  | unsupported (option : String)
  | invalid (option : String) (reason : ValueFault)
deriving DecidableEq, Repr

def OptionFault.message : OptionFault → String
  | unsupported option => s!"option '{option}' is not supported"
  | invalid option reason => s!"invalid value for option '{option}': {reason.message}"

end DesignProcess
