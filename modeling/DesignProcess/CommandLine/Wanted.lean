import DesignProcess.CommandLine.Run

/-!
Which paths a command looks at. Which they are may become known only when earlier ones have been
read: a description names module folders, and the manifests in them name resources.
-/

namespace DesignProcess.CommandLine

structure Wanted where
  path : Path
  deep : Bool
deriving DecidableEq, Repr

def wantedOfFolder (fs : FileSystem) (folder : Path) : List Wanted :=
  match Manifest.ofFolder fs folder with
  | .ok found => ⟨folder, true⟩ :: (found.flatMap (·.2.requires)).map fun p => ⟨p, false⟩
  | .error _ => [⟨folder, true⟩]

def wantedOfDocument (fs : FileSystem) : Except AssemblyError Document → List Wanted
  | .ok d => d.moduleFolders.flatMap fun folder => wantedOfFolder fs (d.resolve folder)
  | .error _ => []

def wantedOfConfig (fs : FileSystem) (config : Path) (format : Option Format) : List Wanted :=
  ⟨config, false⟩ :: wantedOfDocument fs (loadWith fs config format)

def wanted (fs : FileSystem) : Command → List Wanted
  | .check config format => wantedOfConfig fs config format
  | .listModules config folders =>
    config.toList.flatMap (wantedOfConfig fs · none) ++ folders.flatMap (wantedOfFolder fs)
  | .listVariables config file =>
    file.toList.map (fun p => ⟨p, false⟩) ++ wantedOfConfig fs config none
  | .generate path _ _ => [⟨path, false⟩]

/-- How often what is wanted can grow: by folders, by resources, and not again. -/
def wantedRounds : Nat := 3

def passed (p : Path) : List Path :=
  (List.range (p.parts.length - 1)).map fun n =>
    let parts := p.parts.take (n + 1)
    if parts = [""] then ⟨"/"⟩ else Path.ofParts parts

end DesignProcess.CommandLine
