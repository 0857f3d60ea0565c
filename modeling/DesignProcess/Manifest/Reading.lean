import DesignProcess.Manifest.Basic

/-!
Reading manifests from encoded values. What an encoding takes for a text, a number or a record is
its own affair; which records a manifest is made of is said here once.
-/

namespace DesignProcess.Manifest

/-- How the values of an encoding are read. A record may only have fields with the given names; if
it is written without names, then as many of them as the number says have to be there. -/
structure Encoding (m : Type → Type) (ν : Type) where
  refuse : {α : Type} → m α
  record : List String → Nat → ν → m (List (String × ν))
  items : ν → m (List ν)
  text : ν → m String
  kind : ν → m OptionKind
  number? : ν → m (Option Float)
  scalar? : ν → m (Option Scalar)

variable {m : Type → Type} [Monad m] {ν α : Type}

def Encoding.required (e : Encoding m ν) (read : ν → m α) (fields : List (String × ν))
    (name : String) : m α :=
  match fields.lookup name with
  | some v => read v
  | none => e.refuse

def orElse (value : α) (read : ν → m α) (fields : List (String × ν)) (name : String) : m α :=
  match fields.lookup name with
  | some v => read v
  | none => pure value

def Encoding.texts (e : Encoding m ν) (v : ν) : m (List String) := do
  (← e.items v).mapM e.text

def optionFields : List String := ["name", "kind", "default", "lower", "upper", "allowed"]

def Encoding.option (e : Encoding m ν) (v : ν) : m OptionEntry := do
  let fields ← e.record optionFields 5 v
  return {
    name := ← e.required e.text fields "name"
    kind := ← e.required e.kind fields "kind"
    default := ← orElse none e.scalar? fields "default"
    lower := ← orElse none e.number? fields "lower"
    upper := ← orElse none e.number? fields "upper"
    allowed := ← orElse [] e.texts fields "allowed" }

def Encoding.options (e : Encoding m ν) (v : ν) : m (List OptionEntry) := do
  (← e.items v).mapM e.option

def componentFields : List String :=
  ["id", "description", "inputs", "outputs", "requires", "option"]

def Encoding.component (e : Encoding m ν) (v : ν) : m ComponentEntry := do
  let fields ← e.record componentFields 0 v
  return {
    id := ← e.required e.text fields "id"
    description := ← orElse "" e.text fields "description"
    inputs := ← orElse [] e.texts fields "inputs"
    outputs := ← orElse [] e.texts fields "outputs"
    requires := (← orElse [] e.texts fields "requires").map Path.mk
    options := ← orElse [] e.options fields "option" }

def Encoding.components (e : Encoding m ν) (v : ν) : m (List ComponentEntry) := do
  (← e.items v).mapM e.component

def Encoding.manifest (e : Encoding m ν) (v : ν) : m (List ComponentEntry) := do
  orElse [] e.components (← e.record ["component"] 0 v) "component"

end DesignProcess.Manifest
