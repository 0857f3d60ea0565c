import DesignProcess.Manifest.Checking
import DesignProcess.Manifest.Toml
import DesignProcess.Manifest.Yaml
import DesignProcess.Registry

namespace DesignProcess

namespace Manifest

def ofText? : Format → String → Option (List ComponentEntry)
  | .toml, text => Toml.read? text
  | .yaml, text => Yaml.read? text

def ofContent (format : Format) (path : Path) (content : ByteArray) :
    Except Fault (List ComponentType) :=
  match FileSystem.textOf content with
  | .error fault => .error (.unreadable path fault)
  | .ok text =>
    match ofText? format text with
    | none => .error (.ungrammatical path format)
    | some components => componentTypes path components

def ofFile (path : Path) (content : ByteArray) : Except Fault (List (Path × ComponentType)) :=
  match Format.ofPath? path with
  | none => .ok []
  | some format => (ofContent format path content).map (·.map fun t => (path, t))

def ofFiles (files : List (Path × ByteArray)) : Except Fault (List (Path × ComponentType)) := do
  return (← files.mapM fun (path, content) => ofFile path content).flatten

def ofFolder (fs : FileSystem) (folder : Path) : Except Fault (List (Path × ComponentType)) :=
  match fs.entry folder with
  | .error _ => .error (.missingFolder folder)
  | .ok (.file _) => .error (.notFolder folder)
  | .ok (.folder _) => ofFiles (fs.filesBelow folder)

end Manifest

namespace Registry

def registerAll (r : Registry) (found : List (Path × ComponentType)) :
    Except AssemblyError Registry :=
  found.foldlM (fun r (path, t) => r.registerType (.discovered path) t) r

def discoverFolder (fs : FileSystem) (base : Option Path) (r : Registry) (folder : Path) :
    Except AssemblyError (Registry × Nat) :=
  match Manifest.ofFolder fs (folder.resolve base) with
  | .error fault => .error (.discovery folder fault)
  | .ok found => (r.registerAll found).map fun r => (r, found.length)

def discover (fs : FileSystem) (base : Option Path) (r : Registry) :
    List Path → Except AssemblyError (Registry × Nat)
  | [] => .ok (r, 0)
  | folder :: rest => do
    let (r, n) ← discoverFolder fs base r folder
    let (r, k) ← discover fs base r rest
    .ok (r, n + k)

/-- Discovery on a copy that takes the registry's place once all folders are done: how it ends, and
the registry that it leaves. -/
def discoverInPlace (fs : FileSystem) (base : Option Path) (folders : List Path) (r : Registry) :
    Except AssemblyError Nat × Registry :=
  match r.discover fs base folders with
  | .ok (staged, n) => (.ok n, staged)
  | .error e => (.error e, r)

def discovered (fs : FileSystem) (base : Option Path) (folders : List Path) (r : Registry) :
    Except AssemblyError Registry :=
  let (outcome, after) := r.discoverInPlace fs base folders
  outcome.map fun _ => after

end Registry

end DesignProcess
