import DesignProcess.CommandLine.Arguments
import DesignProcess.CommandLine.Report
import DesignProcess.Document.Reading
import DesignProcess.Document.Sample

namespace DesignProcess.CommandLine

inductive CommandError
  | assembly (e : AssemblyError)
  | descriptions (f : DescriptionFault)
  | present (path : Path)
  | file (f : FileFault)
deriving DecidableEq, Repr

def CommandError.render : CommandError → String
  | assembly e => e.render
  | descriptions f => s!"error: {f.message}"
  | present path =>
    s!"error: Refusing to overwrite '{path.text}' (use --force to replace it)"
  | file f => s!"error: I/O error: {f.message}"

abbrev Run := Except CommandError

def ofAssembly {α : Type} : Except AssemblyError α → Run α
  | .ok a => .ok a
  | .error e => .error (.assembly e)

def ofDescriptions {α : Type} : Except DescriptionFault α → Run α
  | .ok a => .ok a
  | .error f => .error (.descriptions f)

def load (fs : FileSystem) (config : Path) : Except AssemblyError Document :=
  orMalformed (Document.load fs config)

def loadWith (fs : FileSystem) (config : Path) : Option Format → Except AssemblyError Document
  | some f => orMalformed (Document.loadAs fs f config)
  | none => load fs config

def check (fs : FileSystem) (config : Path) (format : Option Format) : Run String := do
  let d ← ofAssembly (loadWith fs config format)
  let p ← ofAssembly (Problem.assemble fs d).result
  return Report.problem p ++ s!"✓ '{config.text}' assembled successfully.\n"

def collect (fs : FileSystem) (config : Option Path) (folders : List Path) :
    Except AssemblyError Registry := do
  let r ← Registry.builtin
  let r ← match config with
    | none => .ok r
    | some config => do
      let d ← load fs config
      r.discovered fs d.baseDir d.moduleFolders
  r.discovered fs none folders

def listModules (fs : FileSystem) (config : Option Path) (folders : List Path) : Run String := do
  return Report.registry (← ofAssembly (collect fs config folders))

def model (fs : FileSystem) (d : Document) : Except AssemblyError Model := do
  let r ← (← Registry.builtin).discovered fs d.baseDir d.moduleFolders
  (Model.build fs r d.model).result

def describe (fs : FileSystem) (d : Document) (file : Option Path) :
    Except DescriptionFault Descriptions := do
  let found ← Descriptions.ofFolders fs d.baseDir d.moduleFolders
  match file with
  | none => return found
  | some path => return found.extend (← Descriptions.load fs path)

def listVariables (fs : FileSystem) (config : Path) (file : Option Path) : Run String := do
  let d ← ofAssembly (load fs config)
  let m ← ofAssembly (model fs d)
  let descriptions ← ofDescriptions (describe fs d file)
  return Report.variableList m descriptions

def writeSample (fs : FileSystem) (path : Path) (format : Format) (force : Bool) :
    FileSystem × Run Unit :=
  if fs.exists path && !force then (fs, .error (.present path))
  else
    let above := path.parent
    match fs.makeFolders above.text.length above with
    | .error f => (fs, .error (.file f))
    | .ok fs =>
      match fs.write path (Sample.text format).toUTF8 with
      | .error f => (fs, .error (.file f))
      | .ok fs => (fs, .ok ())

def generate (fs : FileSystem) (path : Path) (format : Option Format) (force : Bool) :
    FileSystem × Run String :=
  let f := (format.orElse fun _ => Format.ofPath? path).getD .toml
  let (fs, r) := writeSample fs path f force
  (fs, r.map fun _ => s!"✓ Sample {f.name} process description written to: {path.text}\n")

def run (fs : FileSystem) : Command → FileSystem × Run String
  | .check config format => (fs, check fs config format)
  | .listModules config folders => (fs, listModules fs config folders)
  | .listVariables config file => (fs, listVariables fs config file)
  | .generate path format force => generate fs path format force

end DesignProcess.CommandLine
