/-!
Tags of YAML nodes. They are bytes, since the escapes in a tag need not form characters.
-/

namespace DesignProcess.Yaml

structure Tag where
  bytes : List UInt8
deriving DecidableEq, Repr

namespace Tag

def ofText (s : String) : Tag := ⟨s.toUTF8.data.toList⟩

def append (s t : Tag) : Tag := ⟨s.bytes ++ t.bytes⟩

def core (name : String) : Tag := ofText ("tag:yaml.org,2002:" ++ name)

def bang : UInt8 := 0x21

def isLocal (t : Tag) : Bool := t.bytes.head? == some bang

def name? (t : Tag) : Option String :=
  match t.bytes with
  | [] => none
  | [b] => if b = bang then some "!" else none
  | b :: rest => if b = bang then String.fromUTF8? ⟨rest.toArray⟩ else none

end Tag

end DesignProcess.Yaml
