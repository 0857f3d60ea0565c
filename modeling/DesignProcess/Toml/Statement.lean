import DesignProcess.Toml.Quoted

namespace DesignProcess.Toml

inductive Statement
  | header (path : List String)
  | item (path : List String)
  | assign (path : List String) (value : Value)
deriving Repr

/-- How many arrays and inline tables can stand inside one another, and how many keys a dotted key
can have. -/
def maxDepth : Nat := 80

namespace Statement

def isSpace (c : Char) : Bool := c == ' ' || c == '\t'

def spaces (cs : List Char) : List Char := cs.dropWhile isSpace

/-- Leaves out blanks, line ends and comments; the flag tells whether a comment is open. -/
def gaps : Bool → List Char → Option (List Char)
  | _, [] => some []
  | _, '\n' :: r => gaps false r
  | _, '\r' :: '\n' :: r => gaps false r
  | true, c :: r => if Quoted.isTextChar c then gaps true r else none
  | false, c :: r =>
    if isSpace c then gaps false r
    else if c == '#' then gaps true r
    else some (c :: r)

def lineEnd : Bool → List Char → Option (List Char)
  | _, [] => some []
  | _, '\n' :: r => some r
  | _, '\r' :: '\n' :: r => some r
  | true, c :: r => if Quoted.isTextChar c then lineEnd true r else none
  | false, c :: r =>
    if isSpace c then lineEnd false r else if c == '#' then lineEnd true r else none

def isBareKeyChar (c : Char) : Bool := c.isAlphanum || c == '_' || c == '-'

def simpleKey? : List Char → Option (String × List Char)
  | '"' :: r => (Quoted.basic r).map fun (k, rest) => (String.ofList k, rest)
  | '\'' :: r => (Quoted.literal r).map fun (k, rest) => (String.ofList k, rest)
  | cs =>
    let k := cs.takeWhile isBareKeyChar
    if k.isEmpty then none else some (String.ofList k, cs.dropWhile isBareKeyChar)

def keys? : Nat → List Char → Option (List String × List Char)
  | 0, _ => none
  | fuel + 1, cs => do
    let (k, rest) ← simpleKey? cs
    match spaces rest with
    | '.' :: r =>
      let (ks, rest) ← keys? fuel (spaces r)
      some (k :: ks, rest)
    | _ => some ([k], rest)

def key? (fuel : Nat) (cs : List Char) : Option (List String × List Char) :=
  (keys? fuel cs).filter fun (path, _) => path.length ≤ maxDepth

end Statement

end DesignProcess.Toml
