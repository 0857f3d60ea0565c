import DesignProcess.Yaml.Node

/-!
Values that a YAML document denotes. Plain scalars are read by their look, core tags force one
reading, and other tags stay on the value.
-/

namespace DesignProcess.Yaml

inductive Value
  | null
  | boolean (b : Bool)
  | integer (n : Int)
  | float (x : Float)
  | string (s : String)
  | sequence (items : List Value)
  | mapping (entries : List (Value × Value))
  | tagged (tag : String) (v : Value)
deriving Repr

namespace Look

def isNull (cs : List Char) : Bool :=
  cs = "null".toList || cs = "Null".toList || cs = "NULL".toList || cs = ['~']

def boolean? (cs : List Char) : Option Bool :=
  if cs = "true".toList ∨ cs = "True".toList ∨ cs = "TRUE".toList then some true
  else if cs = "false".toList ∨ cs = "False".toList ∨ cs = "FALSE".toList then some false
  else none

def dropSign : List Char → List Char
  | '+' :: r => r
  | '-' :: r => r
  | cs => cs

def isPadded (cs : List Char) : Bool :=
  match dropSign cs with
  | '0' :: c :: r => (c :: r).all Char.isDigit
  | _ => false

def digits? (base : Nat) (p : Char → Bool) (cs : List Char) : Option Nat :=
  if cs.isEmpty || !cs.all p then none else some (Toml.Atom.natInBase base cs)

def natural? : List Char → Option Nat
  | '0' :: 'x' :: r => digits? 16 Toml.Atom.isHexDigit r
  | '0' :: 'o' :: r => digits? 8 (fun c => '0' ≤ c && c ≤ '7') r
  | '0' :: 'b' :: r => digits? 2 (fun c => c == '0' || c == '1') r
  | cs => digits? 10 Char.isDigit cs

def integer? (cs : List Char) : Option Int :=
  if isPadded cs then none
  else match cs with
    | '-' :: r => (natural? r).map fun n => -(n : Int)
    | '+' :: r => (natural? r).map fun n => (n : Int)
    | r => (natural? r).map fun n => (n : Int)

def isInfinity (cs : List Char) : Bool :=
  cs = ".inf".toList || cs = ".Inf".toList || cs = ".INF".toList

def isNaN (cs : List Char) : Bool :=
  cs = ".nan".toList || cs = ".NaN".toList || cs = ".NAN".toList

def float? (cs : List Char) : Option Float :=
  if isInfinity cs || (cs.head? = some '+' && isInfinity cs.tail) then some (1 / 0)
  else if cs.head? = some '-' && isInfinity cs.tail then some (-(1 / 0))
  else if isNaN cs then some (0 / 0)
  else (Decimal.float? cs).filter Float.isFinite

/-- How an integer is kept: in 64 bits, with or without a sign. One that takes up to 128 bits is
refused, and larger ones are no integers. -/
inductive Size
  | fits
  | refused
  | unbounded
deriving DecidableEq

def size (n : Int) : Size :=
  if Decimal.fitsWord 64 n then .fits
  else if Decimal.fitsWord 128 n then .refused
  else .unbounded

def plain? (cs : List Char) : Option Value :=
  if cs.isEmpty || isNull cs then some .null
  else match boolean? cs with
    | some b => some (.boolean b)
    | none =>
      match (integer? cs).map fun n => (size n, n) with
      | some (.fits, n) => some (.integer n)
      | some (.refused, _) => none
      | _ =>
        match if isPadded cs then none else float? cs with
        | some x => some (.float x)
        | none => some (.string (String.ofList cs))

def integerTag? (cs : List Char) : Option Value :=
  match integer? cs with
  | some n => if size n = .fits then some (.integer n) else none
  | none => none

def untagged? (style : Style) (text : String) : Option Value :=
  if style = .plain then plain? text.toList else some (.string text)

def value? (tag : Option Tag) (style : Style) (text : String) : Option Value :=
  let cs := text.toList
  match tag with
  | none => untagged? style text
  | some t =>
    if t.isLocal then untagged? style text
    else if t = .core "bool" then (boolean? cs).map .boolean
    else if t = .core "int" then integerTag? cs
    else if t = .core "float" then (float? cs).map .float
    else if t = .core "null" then (if isNull cs then some .null else none)
    else some (.string text)

end Look

def renderTag (tag : String) : String :=
  match tag.toList with
  | '!' :: c :: r => String.ofList ('!' :: c :: r)
  | cs => String.ofList ('!' :: cs)

namespace Value

/-- Equality of keys: a NaN equals itself, and the order of entries does not matter. -/
def sameKey : Value → Value → Bool
  | null, null => true
  | boolean a, boolean b => a == b
  | integer m, integer n => m == n
  | float x, float y => x == y || (x.isNaN && y.isNaN)
  | string s, string t => s == t
  | sequence xs, sequence ys => sameItems xs ys
  | mapping xs, mapping ys => xs.length == ys.length && inEntries xs ys
  | tagged s v, tagged t w => renderTag s == renderTag t && sameKey v w
  | _, _ => false
where
  sameItems : List Value → List Value → Bool
    | [], [] => true
    | x :: xs, y :: ys => sameKey x y && sameItems xs ys
    | _, _ => false
  inEntries : List (Value × Value) → List (Value × Value) → Bool
    | [], _ => true
    | (k, v) :: xs, ys => ys.any (fun (k', v') => sameKey k k' && sameKey v v') && inEntries xs ys

end Value

abbrev Counted := StateT Nat Option

def Tree.follow (t : Tree) : Node → Counted Node
  | .alias number => fun count =>
    if t.limit < count + 1 then none else (t.target? number).map fun n => (n, count + 1)
  | n => pure n

def maxDepth : Nat := 128

def Tree.keepTag (tag : Option Tag) (v : Value) : Value :=
  match tag.bind Tag.name? with
  | some t => .tagged t v
  | none => v

def Tree.scalar (m : Marks) (style : Style) (text : String) : Counted Value := fun count =>
  (Look.value? m.tag style text).map fun v => (keepTag m.tag v, count)

def Tree.addEntry (value : Node → Counted Value) (found : List (Value × Value)) :
    Node × Node → Counted (List (Value × Value))
  | (k, v) => do
    let k ← value k
    if found.any fun (k', _) => k'.sameKey k then fun _ => none
    else return found ++ [(k, ← value v)]

def Tree.value (t : Tree) : Nat → Node → Counted Value
  | 0, n => do
    match ← t.follow n with
    | .scalar m style text => scalar m style text
    | _ => fun _ => none
  | depth + 1, n => do
    match ← t.follow n with
    | .scalar m style text => scalar m style text
    | .sequence m items => return keepTag m.tag (.sequence (← items.mapM (t.value depth)))
    | .mapping m entries =>
      return keepTag m.tag (.mapping (← entries.foldlM (addEntry (t.value depth)) []))
    | .alias _ => fun _ => none

def read? (text : String) : Option Value := do
  let tree ← Tree.ofText? text
  let (v, _) ← tree.value maxDepth tree.root 0
  some v

end DesignProcess.Yaml
