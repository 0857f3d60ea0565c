import DesignProcess.Document.Schema
import DesignProcess.Value.Toml
import DesignProcess.Value.Yaml

namespace DesignProcess

def Value.ofText (f : Format) (text : String) : Except Malformed Value :=
  match f with
  | .toml => ofTomlText text
  | .yaml => ofYamlText text

namespace Document

def ofText (f : Format) (text : String) : Except Malformed Document :=
  Value.ofText f text >>= ofValue

def loadAs (fs : FileSystem) (f : Format) (path : Path) : Except Malformed Document :=
  match fs.readText path with
  | .error fault => .error ⟨.root, .readable path fault⟩
  | .ok text => (ofText f text).map fun d => { d with baseDir := some path.parent }

def load (fs : FileSystem) (path : Path) : Except Malformed Document :=
  match Format.ofPath? path with
  | some f => loadAs fs f path
  | none => .error ⟨.root, .extension path⟩

end Document

end DesignProcess
