import DesignProcess.Yaml.Cursor

namespace DesignProcess.Yaml.Plain

def isFlowIndicator (c : Char) : Bool :=
  c == ',' || c == '[' || c == ']' || c == '{' || c == '}'

def badColon (inFlow : Bool) (c : Cursor) : Bool :=
  inFlow && match c.rest with
    | ':' :: ch :: _ => isFlowIndicator ch || ch == '?'
    | _ => false

def ends (inFlow : Bool) (c : Cursor) : Bool :=
  (c.looksAt ':' && c.blankAfter 1) || (inFlow && c.next isFlowIndicator)

def run (inFlow : Bool) : Nat → Cursor → List Char → Option (Cursor × List Char)
  | 0, _, _ => none
  | fuel + 1, c, text =>
    match c.rest with
    | [] => some (c, text)
    | ch :: _ =>
      if isBlankOrBreak ch then some (c, text)
      else if badColon inFlow c then none
      else if ends inFlow c then some (c, text)
      else run inFlow fuel (c.skip 1) (ch :: text)

/-- The content, last character first, the place behind it and behind the white space that
follows, and whether there is a line break in that white space. -/
def read (inFlow : Bool) (limit : Nat) : Nat → Cursor → Gap → List Char →
    Option (Cursor × List Char × Bool)
  | 0, _, _, _ => none
  | fuel + 1, c, gap, text =>
    if c.atDocumentMark || c.looksAt '#' then some (c, text, gap.broken)
    else do
      let (after, taken) ← run inFlow c.fuel c []
      let text := if taken.isEmpty then text else taken ++ gap.fold.reverse ++ text
      let gap := if taken.isEmpty then gap else Gap.none
      if after.next isBlankOrBreak then
        let (c, gap) ← Gap.read limit after.fuel after gap
        if !inFlow && c.column < limit then some (c, text, gap.broken)
        else read inFlow limit fuel c gap text
      else some (after, text, gap.broken)

structure Scalar where
  cursor : Cursor
  text : String
  broken : Bool

/-- `limit` is the least column of a further line outside of flow collections. -/
def content? (inFlow : Bool) (limit : Nat) (c : Cursor) : Option Scalar :=
  (read inFlow limit c.fuel c Gap.none []).map fun (cursor, text, broken) =>
    ⟨cursor, String.ofList text.reverse, broken⟩

end DesignProcess.Yaml.Plain
