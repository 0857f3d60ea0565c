import DesignProcess.Files.Path

namespace DesignProcess

inductive FileFault
  | missing
  | present
  | notFolder
  | isFolder
  | notText
  | tooLong
  | unnameable
deriving DecidableEq, Repr

def FileFault.message : FileFault → String
  | missing => "No such file or directory (os error 2)"
  | present => "File exists (os error 17)"
  | notFolder => "Not a directory (os error 20)"
  | isFolder => "Is a directory (os error 21)"
  | notText => "stream did not contain valid UTF-8"
  | tooLong => "File name too long (os error 36)"
  | unnameable => "file name contained an unexpected NUL byte"

inductive Entry
  | file (content : ByteArray)
  | folder (entries : List (String × Entry))

namespace Entry

def isFolder : Entry → Bool
  | folder _ => true
  | file _ => false

def child? (name : String) : Entry → Option Entry
  | folder entries => entries.lookup name
  | file _ => none

def descendant? : List String → Entry → Option Entry
  | [], e => some e
  | name :: names, e => (e.child? name).bind (descendant? names)

def replace (name : String) (new : Entry) : List (String × Entry) → List (String × Entry)
  | [] => [(name, new)]
  | (k, e) :: rest => if k = name then (k, new) :: rest else (k, e) :: replace name new rest

def put (e : Entry) : List String → Entry → Entry
  | [], new => new
  | name :: names, new =>
    let entries := match e with
      | folder entries => entries
      | file _ => []
    folder (replace name (put ((entries.lookup name).getD (folder [])) names new) entries)

def remove : List String → Entry → Entry
  | [], e => e
  | [name], folder entries => folder (entries.filter (·.1 ≠ name))
  | name :: names, folder entries =>
    folder (entries.map fun (k, e) => if k = name then (k, remove names e) else (k, e))
  | _, e => e

mutual

def files : Entry → List (List String × ByteArray)
  | file content => [([], content)]
  | folder entries => filesOf entries

def filesOf : List (String × Entry) → List (List String × ByteArray)
  | [] => []
  | (name, e) :: rest =>
    (e.files.map fun (names, content) => (name :: names, content)) ++ filesOf rest

end

end Entry

structure FileSystem where
  root : Entry
  working : List String

namespace FileSystem

def maxName : Nat := 255

def maxPath : Nat := 4095

def pathFault? (p : Path) : Option FileFault :=
  if p.text.toList.contains '\x00' then some .unnameable
  else if maxPath < p.text.utf8ByteSize then some .tooLong
  else if p.text.isEmpty then some .missing
  else none

def step (fs : FileSystem) (names : List String) (part : String) :
    Except FileFault (List String) :=
  match fs.root.descendant? names with
  | none => .error .missing
  | some (.file _) => .error .notFolder
  | some (.folder entries) =>
    if part = "" ∨ part = "." then .ok names
    else if part = ".." then .ok names.dropLast
    else if maxName < part.utf8ByteSize then .error .tooLong
    else if (entries.lookup part).isSome then .ok (names ++ [part])
    else .error .missing

def start (fs : FileSystem) (p : Path) : List String := if p.isAbsolute then [] else fs.working

def follow (fs : FileSystem) (p : Path) (parts : List String) : Except FileFault (List String) :=
  parts.foldlM fs.step (fs.start p)

def locate (fs : FileSystem) (p : Path) : Except FileFault (List String) :=
  match pathFault? p with
  | some f => .error f
  | none => fs.follow p p.parts

def entry (fs : FileSystem) (p : Path) : Except FileFault Entry := do
  match fs.root.descendant? (← fs.locate p) with
  | some e => .ok e
  | none => .error .missing

def «exists» (fs : FileSystem) (p : Path) : Bool := (fs.entry p).toBool

def isFolder (fs : FileSystem) (p : Path) : Bool :=
  match fs.entry p with
  | .ok e => e.isFolder
  | .error _ => false

def textOf (content : ByteArray) : Except FileFault String :=
  match String.fromUTF8? content with
  | some s => .ok s
  | none => .error .notText

def readText (fs : FileSystem) (p : Path) : Except FileFault String := do
  match ← fs.entry p with
  | .file content => textOf content
  | .folder _ => .error .isFolder

def placed (fs : FileSystem) (names : List String) (e : Entry) : FileSystem :=
  { fs with root := fs.root.put names e }

inductive Target
  | entry (above : List String) (name : String)
  | folder

def target (fs : FileSystem) (p : Path) : Except FileFault Target :=
  match pathFault? p, p.parts.reverse.dropWhile (· = "") with
  | some f, _ => .error f
  | none, [] => .ok .folder
  | none, last :: before => do
    let above ← fs.step (← fs.follow p before.reverse) "."
    if last = "." ∨ last = ".." then .ok .folder
    else .ok (.entry above last)

def endsInSlash (p : Path) : Bool := p.text.toList.getLast? == some '/'

def write (fs : FileSystem) (p : Path) (content : ByteArray) : Except FileFault FileSystem := do
  match ← fs.target p with
  | .entry above name =>
    if endsInSlash p then .error .isFolder
    else if maxName < name.utf8ByteSize then .error .tooLong
    else match fs.root.descendant? (above ++ [name]) with
      | some (.folder _) => .error .isFolder
      | _ => .ok (fs.placed (above ++ [name]) (.file content))
  | .folder => .error .isFolder

def makeFolder (fs : FileSystem) (p : Path) : Except FileFault FileSystem := do
  match ← fs.target p with
  | .entry above name =>
    if maxName < name.utf8ByteSize then .error .tooLong
    else if (fs.root.descendant? (above ++ [name])).isSome then .error .present
    else .ok (fs.placed (above ++ [name]) (.folder []))
  | .folder => .error .present

def makeFolders (fs : FileSystem) (fuel : Nat) (p : Path) : Except FileFault FileSystem :=
  let unlessThere (fs : FileSystem) (f : FileFault) : Except FileFault FileSystem :=
    if fs.isFolder p then .ok fs else .error f
  if p.text.isEmpty then .ok fs
  else match fs.makeFolder p, fuel, p.parent? with
    | .ok made, _, _ => .ok made
    | .error .missing, fuel + 1, some above => do
      let fs ← makeFolders fs fuel above
      match fs.makeFolder p with
      | .ok made => .ok made
      | .error f => unlessThere fs f
    | .error .missing, _, _ => .error .missing
    | .error f, _, _ => unlessThere fs f

def precedes (a b : List String) : Bool := !List.lex b a (· < ·)

def filesBelow (fs : FileSystem) (folder : Path) : List (Path × ByteArray) :=
  match fs.entry folder with
  | .ok (.folder entries) =>
    ((Entry.filesOf entries).mergeSort fun a b => precedes a.1 b.1).map fun (names, content) =>
      (names.foldl (fun p name => p.join ⟨name⟩) folder, content)
  | _ => []

end FileSystem

end DesignProcess
