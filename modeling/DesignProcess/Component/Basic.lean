import DesignProcess.Component.Option
import DesignProcess.Files.System

namespace DesignProcess

inductive Direction
  | input
  | output
deriving DecidableEq, Repr

def Direction.name : Direction → String
  | input => "in"
  | output => "out"

structure Variable where
  name : String
  direction : Direction
deriving DecidableEq, Repr

structure ComponentType where
  identifier : String
  description : String
  interface : List Variable
  options : List OptionRule
  requires : List Path
deriving DecidableEq, Repr

def Variable.ofNames (inputs outputs : List String) : List Variable :=
  inputs.map (fun name => ⟨name, .input⟩) ++ outputs.map fun name => ⟨name, .output⟩

structure OptionSlot where
  rule : OptionRule
  value : Option Scalar
deriving DecidableEq, Repr

structure Component where
  identifier : String
  interface : List Variable
  slots : List OptionSlot
deriving DecidableEq, Repr

namespace Component

def setSlot (name : String) (v : Scalar) : List OptionSlot → Except OptionFault (List OptionSlot)
  | [] => .error (.unsupported name)
  | slot :: rest =>
    if slot.rule.name = name then
      match slot.rule.check v with
      | .ok stored => .ok ({ slot with value := some stored } :: rest)
      | .error reason => .error (.invalid name reason)
    else (setSlot name v rest).map (slot :: ·)

def set (c : Component) (name : String) (v : Scalar) : Except OptionFault Component :=
  (setSlot name v c.slots).map fun slots => { c with slots }

def options (c : Component) : List (String × Scalar) :=
  c.slots.filterMap fun slot => slot.value.map fun v => (slot.rule.name, v)

end Component

structure CreationFault where
  message : String
  cause : Option String
deriving DecidableEq, Repr

def CreationFault.missing (resource : Path) : CreationFault :=
  ⟨s!"required resource '{resource.text}' is missing", some resource.text⟩

namespace ComponentType

def fresh (t : ComponentType) : Component :=
  ⟨t.identifier, t.interface, t.options.map fun rule => ⟨rule, rule.default⟩⟩

def create (fs : FileSystem) (t : ComponentType) : Except CreationFault Component :=
  match t.requires.find? fun p => !fs.exists p with
  | some p => .error (.missing p)
  | none => .ok t.fresh

end ComponentType

inductive Factory
  | declared (type : ComponentType)
  | failing (fault : CreationFault)
deriving DecidableEq, Repr

namespace Factory

def create (fs : FileSystem) : Factory → Except CreationFault Component
  | declared t => t.create fs
  | failing fault => .error fault

def description : Factory → String
  | declared t => t.description
  | failing _ => ""

end Factory

end DesignProcess
