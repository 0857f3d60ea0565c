import DesignProcess.Yaml.Block
import DesignProcess.Yaml.Token
import DesignProcess.Toml.Atom

namespace DesignProcess.Yaml.Label

def endsName (c : Cursor) : Bool :=
  c.blankAfter 0 || c.next fun ch => "?:,]\x7d%@".toList.contains ch || ch == '\x60'

def name? (c : Cursor) : Option (String × Cursor) :=
  let name := c.rest.takeWhile isWord
  let after := c.skip name.length
  if name.isEmpty || !endsName after then none else some (String.ofList name, after)

def isUriMark (c : Char) : Bool := ";/?:@&=+$.%!~*'()".toList.contains c

def isUri (verbatim : Bool) (c : Char) : Bool :=
  isWord c || isUriMark c || (verbatim && (c == ',' || c == '[' || c == ']'))

def escapedByte? : List Char → Option (UInt8 × List Char)
  | '%' :: a :: b :: r =>
    if Toml.Atom.isHexDigit a && Toml.Atom.isHexDigit b then
      some ((Toml.Atom.natInBase 16 [a, b]).toUInt8, r)
    else none
  | _ => none

def encodedLength (b : UInt8) : Nat :=
  if b < 0x80 then 1 else if b < 0xC0 then 0 else if b < 0xE0 then 2
  else if b < 0xF0 then 3 else if b < 0xF8 then 4 else 0

def isContinuation (b : UInt8) : Bool := 0x80 ≤ b && b < 0xC0

def continuation? : Nat → List Char → Option (List UInt8 × List Char)
  | 0, cs => some ([], cs)
  | n + 1, cs => do
    let (b, r) ← escapedByte? cs
    if isContinuation b then
      let (bs, r) ← continuation? n r
      some (b :: bs, r)
    else none

def escapedBytes? (cs : List Char) : Option (List UInt8 × List Char) := do
  let (b, r) ← escapedByte? cs
  if encodedLength b = 0 then none
  else
    let (bs, r) ← continuation? (encodedLength b - 1) r
    some (b :: bs, r)

def unescape? : Nat → List Char → Option (List UInt8)
  | 0, _ => none
  | _, [] => some []
  | fuel + 1, '%' :: r => do
    let (bs, rest) ← escapedBytes? ('%' :: r)
    (unescape? fuel rest).map (bs ++ ·)
  | fuel + 1, c :: r => (unescape? fuel r).map (c.toNat.toUInt8 :: ·)

/-- The rest of a tag behind `head`, which counts as written. A zero byte ends a tag. -/
def uri? (verbatim : Bool) (head : List Char) (c : Cursor) : Option (Tag × Cursor) := do
  let text := c.rest.takeWhile (isUri verbatim)
  if head.isEmpty && text.isEmpty then none
  else
    let start := Tag.ofText (String.ofList (head.drop 1))
    let decoded ← unescape? (text.length + 1) text
    some (start.append ⟨decoded.takeWhile (· ≠ 0)⟩, c.skip text.length)

def handle? (c : Cursor) : Option (List Char × Cursor) :=
  match c.rest with
  | '!' :: r =>
    let word := r.takeWhile isWord
    let after := c.skip (1 + word.length)
    if after.looksAt '!' then some ('!' :: (word ++ ['!']), after.skip 1)
    else some ('!' :: word, after)
  | _ => none

def isClosedHandle (handle : List Char) : Bool :=
  1 < handle.length && handle.getLast? == some '!'

def tagParts? (c : Cursor) : Option (String × Tag × Cursor) :=
  if c.rest[1]? = some '<' then do
    let (uri, c) ← uri? true [] (c.skip 2)
    if c.looksAt '>' then some ("", uri, c.skip 1) else none
  else do
    let (handle, c) ← handle? c
    if isClosedHandle handle then do
      let (suffix, c) ← uri? false [] c
      some (String.ofList handle, suffix, c)
    else do
      let (suffix, c) ← uri? false handle c
      if suffix.bytes.isEmpty then some ("", .ofText "!", c) else some ("!", suffix, c)

def tag? (inFlow : Bool) (c : Cursor) : Option (Token × Cursor) := do
  let (handle, suffix, c) ← tagParts? c
  if c.blankAfter 0 || (inFlow && c.looksAt ',') then some (.tag handle suffix, c) else none

def number? (c : Cursor) : Option (Nat × Cursor) :=
  let digits := c.rest.takeWhile Char.isDigit
  if digits.isEmpty || 9 < digits.length then none
  else some (Decimal.natOfDigits digits, c.skip digits.length)

def version? (c : Cursor) : Option (Token × Cursor) := do
  let (major, c) ← number? (c.skipWhile isSpaceOrTab)
  if c.looksAt '.' then
    let (minor, c) ← number? (c.skip 1)
    some (.version major minor, c)
  else none

def tagHandle? (c : Cursor) : Option (Token × Cursor) := do
  let (handle, c) ← handle? (c.skipWhile isSpaceOrTab)
  if !isClosedHandle handle && handle != ['!'] then none
  else if !c.next isSpaceOrTab then none
  else
    let (start, c) ← uri? true [] (c.skipWhile isSpaceOrTab)
    if c.blankAfter 0 then some (.tagHandle (String.ofList handle) start, c) else none

def directive? (c : Cursor) : Option (Token × Cursor) := do
  let c := c.skip 1
  let name := c.rest.takeWhile isWord
  let c := c.skip name.length
  if !c.blankAfter 0 then none
  else
    let (t, c) ←
      if name = "YAML".toList then version? c
      else if name = "TAG".toList then tagHandle? c
      else none
    some (t, ← Block.lineEnd? c)

end DesignProcess.Yaml.Label
