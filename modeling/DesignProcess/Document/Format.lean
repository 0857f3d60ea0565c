import DesignProcess.Files.Path

namespace DesignProcess

inductive Format
  | toml
  | yaml
deriving DecidableEq, Repr

namespace Format

def name : Format → String
  | toml => "TOML"
  | yaml => "YAML"

def extension : Format → String
  | toml => "toml"
  | yaml => "yml"

def ofName? (s : String) : Option Format :=
  match lowerAscii s with
  | "toml" => some toml
  | "yaml" => some yaml
  | "yml" => some yaml
  | _ => none

def unknownName (s : String) : String :=
  s!"Unknown configuration format '{lowerAscii s}'. Expected 'toml' or 'yaml'."

def ofPath? (p : Path) : Option Format := p.extension?.bind ofName?

end Format

end DesignProcess
