import DesignProcess.Yaml.Tag

namespace DesignProcess.Yaml

inductive Style
  | plain
  | quoted
  | literal
  | folded
deriving DecidableEq, Repr

inductive Token
  | version (major minor : Nat)
  | tagHandle (handle : String) (start : Tag)
  | documentStart
  | documentEnd
  | blockSequence
  | blockMapping
  | blockEnd
  | flowSequence
  | flowSequenceEnd
  | flowMapping
  | flowMappingEnd
  | blockEntry
  | flowEntry
  | key
  | value
  | alias (name : String)
  | anchor (name : String)
  | tag (handle : String) (suffix : Tag)
  | scalar (style : Style) (text : String)
  | streamEnd
deriving DecidableEq, Repr

end DesignProcess.Yaml
