import DesignProcess.CommandLine.Wanted

namespace DesignProcess.Program

open DesignProcess.CommandLine

def usage : String :=
  "Usage: (check CONFIG [--format FORMAT] | list-modules [--config CONFIG] [--folder DIR]... |\n" ++
    "  list-variables CONFIG [--descriptions FILE] | gen-conf PATH [--format FORMAT] [--force])\n"

def version : String := "0.1.0-alpha.1\n"

def namesOf (absolute : String) : List String := (absolute.splitOn "/").filter (· ≠ "")

def isRead (name : String) : Bool :=
  name = Descriptions.fileName || (Format.ofPath? ⟨name⟩).isSome

partial def entryBelow (path name : String) : IO (Option Entry) := do
  match (← (← IO.FS.realPath path).metadata).type with
  | .dir =>
    let mut entries : List (String × Entry) := []
    for e in ← (← IO.FS.realPath path).readDir do
      unless (← e.path.symlinkMetadata).type == .symlink do
        if let some below ← entryBelow s!"{path}/{e.fileName}" e.fileName then
          entries := entries ++ [(e.fileName, below)]
    return some (.folder entries)
  | .file => return some (.file (← if isRead name then IO.FS.readBinFile path else pure .empty))
  | _ => return none

def entryAt (path : String) (deep : Bool) : IO (Option Entry) := do
  match (← (← IO.FS.realPath path).metadata).type with
  | .dir => if deep then entryBelow path "" else return some (.folder [])
  | .file => return some (.file (← IO.FS.readBinFile path))
  | _ => return none

def take (fs : FileSystem) (path : Path) (deep : Bool) : IO FileSystem := do
  try
    let names := namesOf (← IO.FS.realPath path.text).toString
    match ← entryAt path.text deep with
    | none => return fs
    | some e =>
      if deep || (fs.root.descendant? names).isNone then return fs.placed names e else return fs
  catch _ => return fs

def takeAll (c : Command) : Nat → FileSystem → IO FileSystem
  | 0, fs => return fs
  | rounds + 1, fs => do
    let mut fs := fs
    for w in (wanted fs c).filter (!·.path.text.isEmpty) do
      for p in passed w.path do
        fs ← take fs p false
      fs ← take fs w.path w.deep
    takeAll c rounds fs

def absolute (names : List String) : String := "/" ++ "/".intercalate names

partial def save (before : Option Entry) (names : List String) : Entry → IO Unit
  | .file content => do
    let same := match before with
      | some (.file old) => old.data == content.data
      | _ => false
    unless same do IO.FS.writeBinFile (absolute names) content
  | .folder entries => do
    if before.isNone then IO.FS.createDirAll (absolute names)
    for (name, e) in entries do
      save (before.bind (·.child? name)) (names ++ [name]) e

def runCommand (c : Command) : IO UInt32 := do
  let working := namesOf (← IO.currentDir).toString
  let empty : FileSystem := ⟨.folder [], working⟩
  let before ← takeAll c wantedRounds (empty.placed working (.folder []))
  let (after, result) := run before c
  save (some before.root) [] after.root
  match result with
  | .ok out =>
    IO.print out
    return 0
  | .error e =>
    IO.eprintln e.render
    return 1

end DesignProcess.Program

open DesignProcess in
def main (args : List String) : IO UInt32 := do
  match CommandLine.read args with
  | .ok c => Program.runCommand c
  | .error .help =>
    IO.print Program.usage
    return 0
  | .error .version =>
    IO.print Program.version
    return 0
  | .error _ =>
    IO.eprint Program.usage
    return 2
