import DesignProcess.AssemblyError
import DesignProcess.Text.Blank

namespace DesignProcess.Manifest

def OptionEntry.rule (e : OptionEntry) : OptionRule :=
  ⟨e.name, e.kind, none, e.lower, e.upper, e.allowed⟩

def infiniteBound? (e : OptionEntry) : Option Float :=
  (e.lower.toList ++ e.upper.toList).find? fun b => !b.isFinite

def optionFlaw? (component : String) (names : List String) (e : OptionEntry) : Option Flaw :=
  if names.contains e.name then some (.repeatedOption component e.name)
  else match infiniteBound? e, crossedBounds? e.lower e.upper with
    | some b, _ => some (.infiniteBound component e.name b)
    | none, some (l, u) => some (.crossedBounds component e.name l u)
    | none, none => none

def checkDefault (path : Path) (component : String) (e : OptionEntry) : Except Fault OptionRule :=
  match e.default with
  | none => .ok e.rule
  | some v =>
    match e.rule.check v with
    | .ok stored => .ok { e.rule with default := some stored }
    | .error reason => .error (.badDefault path component e.name reason)

def optionRules (path : Path) (component : String) (names : List String) :
    List OptionEntry → Except Fault (List OptionRule)
  | [] => .ok []
  | e :: rest =>
    match optionFlaw? component names e with
    | some flaw => .error (.invalid path flaw)
    | none => do
      let rule ← checkDefault path component e
      .ok (rule :: (← optionRules path component (names ++ [e.name]) rest))

def isIdentifier (id : String) : Bool := !id.isEmpty && !id.toList.any Text.isBlank

def componentType (path : Path) (c : ComponentEntry) : Except Fault ComponentType :=
  if isIdentifier c.id then do
    let options ← optionRules path c.id [] c.options
    .ok {
      identifier := c.id
      description := c.description
      interface := Variable.ofNames c.inputs c.outputs
      options
      requires := c.requires.map path.parent.join }
  else .error (.invalid path (.identifier c.id))

def componentTypes (path : Path) (cs : List ComponentEntry) : Except Fault (List ComponentType) :=
  if cs.isEmpty then .error (.invalid path .noComponents) else cs.mapM (componentType path)

end DesignProcess.Manifest
