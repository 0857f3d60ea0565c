import DesignProcess.Dictionary
import DesignProcess.Files.System
import DesignProcess.Text.Blank
import DesignProcess.Text.Search

namespace DesignProcess

abbrev Descriptions := Dictionary String

inductive LineFlaw
  | noSeparator
  | noName
deriving DecidableEq, Repr

def LineFlaw.message : LineFlaw → String
  | noSeparator => "expected 'name || description'"
  | noName => "missing variable name"

inductive DescriptionFault
  | unreadable (path : Path) (fault : FileFault)
  | flawed (source : String) (line : Nat) (flaw : LineFlaw)
deriving DecidableEq, Repr

def DescriptionFault.message : DescriptionFault → String
  | unreadable path fault =>
    s!"Failed to read variable descriptions from '{path.text}': {fault.message}"
  | flawed source line flaw => s!"Syntax error in '{source}' at line {line}: {flaw.message}"

namespace Descriptions

def entry? (line : List Char) : Except LineFlaw (Option (String × String)) :=
  match line with
  | [] => .ok none
  | '#' :: _ => .ok none
  | line =>
    match Text.cutAt? ['|', '|'] line with
    | none => .error .noSeparator
    | some (before, after) =>
      let name := Text.trim before
      if name.isEmpty then .error .noName
      else .ok (some (String.ofList name, String.ofList (Text.trim after)))

def insertLine (d : Descriptions) : Option (String × String) → Descriptions
  | some (name, description) => d.insert name description
  | none => d

def addLines (source : String) (d : Descriptions) (number : Nat) :
    List (List Char) → Except DescriptionFault Descriptions
  | [] => .ok d
  | line :: rest =>
    match entry? (Text.trim line) with
    | .error flaw => .error (.flawed source number flaw)
    | .ok e => addLines source (insertLine d e) (number + 1) rest

def ofTextFrom (source text : String) : Except DescriptionFault Descriptions :=
  addLines source .empty 1 (text.toList.splitOn '\n')

def ofText (text : String) : Except DescriptionFault Descriptions := ofTextFrom "<string>" text

def ofContent (path : Path) (content : Except FileFault String) :
    Except DescriptionFault Descriptions :=
  match content with
  | .error fault => .error (.unreadable path fault)
  | .ok text => ofTextFrom path.text text

def load (fs : FileSystem) (path : Path) : Except DescriptionFault Descriptions :=
  ofContent path (fs.readText path)

def fileName : String := "variable_descriptions.txt"

def addFile (d : Descriptions) (path : Path) (content : ByteArray) :
    Except DescriptionFault Descriptions :=
  if path.fileName? = some fileName then
    (ofContent path (FileSystem.textOf content)).map d.extend
  else .ok d

def addFolder (fs : FileSystem) (d : Descriptions) (folder : Path) :
    Except DescriptionFault Descriptions :=
  (fs.filesBelow folder).foldlM (fun d (path, content) => d.addFile path content) d

def ofFolders (fs : FileSystem) (base : Option Path) (folders : List Path) :
    Except DescriptionFault Descriptions :=
  folders.foldlM (fun d folder => d.addFolder fs (folder.resolve base)) .empty

end Descriptions

end DesignProcess
