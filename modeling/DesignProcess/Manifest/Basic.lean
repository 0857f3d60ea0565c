import DesignProcess.Component.Option
import DesignProcess.Document.Format
import DesignProcess.Files.System

namespace DesignProcess

namespace Manifest

structure OptionEntry where
  name : String
  kind : OptionKind
  default : Option Scalar
  lower : Option Float
  upper : Option Float
  allowed : List String
deriving DecidableEq, Repr

structure ComponentEntry where
  id : String
  description : String
  inputs : List String
  outputs : List String
  requires : List Path
  options : List OptionEntry
deriving DecidableEq, Repr

inductive Flaw
  | noComponents
  | identifier (id : String)
  | repeatedOption (component option : String)
  | infiniteBound (component option : String) (bound : Float)
  | crossedBounds (component option : String) (lower upper : Float)
deriving DecidableEq, Repr

def Flaw.message : Flaw → String
  | noComponents => "no components declared"
  | identifier id => s!"invalid component id '{id}'"
  | repeatedOption component option =>
    s!"component '{component}' declares option '{option}' twice"
  | infiniteBound component option bound =>
    s!"option '{option}' of component '{component}' has a non-finite bound " ++
      Decimal.plain.render bound
  | crossedBounds component option lower upper =>
    s!"option '{option}' of component '{component}' has lower bound " ++
      s!"{Decimal.plain.render lower} above upper bound {Decimal.plain.render upper}"

inductive Fault
  | missingFolder (path : Path)
  | notFolder (path : Path)
  | unreadable (path : Path) (fault : FileFault)
  | ungrammatical (path : Path) (format : Format)
  | badDefault (path : Path) (component option : String) (reason : ValueFault)
  | invalid (path : Path) (flaw : Flaw)
deriving DecidableEq, Repr

end Manifest

end DesignProcess
