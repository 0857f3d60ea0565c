import DesignProcess.Yaml.Label
import DesignProcess.Yaml.Plain
import DesignProcess.Yaml.Quoted

/-!
The tokens of a text. Indentation opens and closes blocks. A token that may turn out to be a key
is remembered until the colon behind it, or until it cannot be one any more: keys stand on one
line and have at most 1024 bytes.
-/

namespace DesignProcess.Yaml

structure Candidate where
  /-- It must become a key, since only a key can stand at its column. -/
  required : Bool
  number : Nat
  offset : Nat
  line : Nat
  column : Nat

structure Layout where
  cursor : Cursor
  /-- The columns of the open blocks, innermost first. -/
  blocks : List Nat
  /-- The candidates of the open flow collections, innermost first, and last that of the block. -/
  candidates : List (Option Candidate)
  keyAllowed : Bool
  tokens : Array Token

namespace Layout

def ofText (cs : List Char) : Layout := ⟨⟨cs, 0, 0, 0⟩, [], [none], true, #[]⟩

def inFlow (l : Layout) : Bool := 1 < l.candidates.length

def indent (l : Layout) : Int :=
  match l.blocks with
  | [] => -1
  | column :: _ => column

def emit (l : Layout) (t : Token) : Layout := { l with tokens := l.tokens.push t }

def allowKey (l : Layout) (allowed : Bool) : Layout := { l with keyAllowed := allowed }

def move (l : Layout) (c : Cursor) : Layout := { l with cursor := c }

def insert (l : Layout) (number : Nat) (ts : List Token) : Layout :=
  { l with tokens := l.tokens.take number ++ ts.toArray ++ l.tokens.drop number }

/-- Passes blanks, comments, line breaks, and a byte order mark that begins a line. Outside of
flow collections a line break lets a key begin, and tabs count as blanks only where none can. -/
def gap : Nat → Layout → Layout
  | 0, l => l
  | fuel + 1, l =>
    let c := if l.cursor.column = 0 ∧ l.cursor.looksAt '\ufeff' then l.cursor.skip 1 else l.cursor
    let tabs := l.inFlow || !l.keyAllowed
    let c := c.skipWhile fun ch => ch == ' ' || (tabs && ch == '\t')
    let c := if c.looksAt '#' then c.skipWhile (!isBreak ·) else c
    if c.next isBreak then
      gap fuel ((l.move c.lineBreak.2).allowKey (l.keyAllowed || !l.inFlow))
    else l.move c

def Candidate.isStale (k : Candidate) (c : Cursor) : Bool :=
  k.line < c.line || k.offset + 1024 < c.offset

def dropStale (l : Layout) : Option Layout := do
  let candidates ← l.candidates.mapM fun
    | none => some none
    | some k =>
      if Candidate.isStale k l.cursor then (if k.required then none else some none)
      else some (some k)
  some { l with candidates }

def dropCandidate (l : Layout) : Option Layout :=
  match l.candidates with
  | some k :: outer => if k.required then none else some { l with candidates := none :: outer }
  | _ => some l

def noteCandidate (l : Layout) : Option Layout :=
  if l.keyAllowed then do
    let l ← l.dropCandidate
    let c := l.cursor
    let required := !l.inFlow && l.indent == c.column
    let k : Candidate := ⟨required, l.tokens.size, c.offset, c.line, c.column⟩
    some { l with candidates := some k :: l.candidates.drop 1 }
  else some l

def closeBlocks (column : Int) : List Nat → Layout → Layout
  | [], l => { l with blocks := [] }
  | b :: outer, l =>
    if column < b then closeBlocks column outer (l.emit .blockEnd)
    else { l with blocks := b :: outer }

def unroll (l : Layout) (column : Int) : Layout :=
  if l.inFlow then l else closeBlocks column l.blocks l

def roll (l : Layout) (column number : Nat) (t : Token) : Layout :=
  if l.inFlow || column ≤ l.indent then l
  else { l.insert number [t] with blocks := column :: l.blocks }

def pass (l : Layout) (width : Nat) (t : Token) : Layout := (l.move (l.cursor.skip width)).emit t

def outside (l : Layout) : Option Layout := do
  some ((← (l.unroll (-1)).dropCandidate).allowKey false)

def streamEnd (l : Layout) : Option Layout := do
  some ((← l.outside).emit .streamEnd)

def directive (l : Layout) : Option Layout := do
  let l ← l.outside
  let (t, c) ← Label.directive? l.cursor
  some ((l.move c).emit t)

def documentMark (l : Layout) (t : Token) : Option Layout := do
  some ((← l.outside).pass 3 t)

def openFlow (l : Layout) (t : Token) : Option Layout := do
  let l ← l.noteCandidate
  some (({ l with candidates := none :: l.candidates }.allowKey true).pass 1 t)

def closeFlow (l : Layout) (t : Token) : Option Layout := do
  let l ← l.dropCandidate
  let candidates := if l.inFlow then l.candidates.drop 1 else l.candidates
  some (({ l with candidates }.allowKey false).pass 1 t)

def flowEntry (l : Layout) : Option Layout := do
  some (((← l.dropCandidate).allowKey true).pass 1 .flowEntry)

def openBlock (l : Layout) (t : Token) : Option Layout :=
  if l.inFlow then some l
  else if l.keyAllowed then some (l.roll l.cursor.column l.tokens.size t)
  else none

def blockEntry (l : Layout) : Option Layout := do
  let l ← (← l.openBlock .blockSequence).dropCandidate
  some ((l.allowKey true).pass 1 .blockEntry)

def key (l : Layout) : Option Layout := do
  let l ← (← l.openBlock .blockMapping).dropCandidate
  some ((l.allowKey (!l.inFlow)).pass 1 .key)

def value (l : Layout) : Option Layout :=
  match l.candidates with
  | some k :: outer =>
    let l := { l.insert k.number [.key] with candidates := none :: outer }
    some (((l.roll k.column k.number .blockMapping).allowKey false).pass 1 .value)
  | _ => do
    let l ← l.openBlock .blockMapping
    some ((l.allowKey (!l.inFlow)).pass 1 .value)

def label (l : Layout) (t : String → Token) : Option Layout := do
  let l ← l.noteCandidate
  let (name, c) ← Label.name? (l.cursor.skip 1)
  some ((((l.allowKey false).move c).emit (t name)))

def tag (l : Layout) : Option Layout := do
  let l ← l.noteCandidate
  let (t, c) ← Label.tag? l.inFlow l.cursor
  some (((l.allowKey false).move c).emit t)

def block (l : Layout) (style : Style) : Option Layout := do
  let l ← l.dropCandidate
  let (c, text) ← Block.content? (style == .literal) l.indent l.cursor
  some (((l.allowKey true).move c).emit (.scalar style text))

def quoted (l : Layout) (quote : Char) : Option Layout := do
  let l ← l.noteCandidate
  let (c, text) ← Quoted.content? quote (l.cursor.skip 1)
  some (((l.allowKey false).move c).emit (.scalar .quoted text))

def plain (l : Layout) : Option Layout := do
  let l ← l.noteCandidate
  let s ← Plain.content? l.inFlow (l.indent + 1).toNat l.cursor
  some (((l.allowKey s.broken).move s.cursor).emit (.scalar .plain s.text))

def isIndicator (c : Char) : Bool :=
  "-?:,[]\x7b\x7d#&*!|>'\"%@".toList.contains c || c == '\x60'

def beginsPlain (l : Layout) (ch : Char) : Bool :=
  !(isBlankOrBreak ch || isIndicator ch) ||
    (ch == '-' && !(l.cursor.rest.drop 1).head?.any isSpaceOrTab) ||
    (!l.inFlow && (ch == '?' || ch == ':') && !l.cursor.blankAfter 1)

def token (l : Layout) (ch : Char) : Option Layout :=
  let c := l.cursor
  if c.column = 0 ∧ ch = '%' then l.directive
  else if c.marks '-' then l.documentMark .documentStart
  else if c.marks '.' then l.documentMark .documentEnd
  else if ch = '[' then l.openFlow .flowSequence
  else if ch = '{' then l.openFlow .flowMapping
  else if ch = ']' then l.closeFlow .flowSequenceEnd
  else if ch = '}' then l.closeFlow .flowMappingEnd
  else if ch = ',' then l.flowEntry
  else if ch = '-' ∧ c.blankAfter 1 then l.blockEntry
  else if ch = '?' ∧ (l.inFlow ∨ c.blankAfter 1) then l.key
  else if ch = ':' ∧ (l.inFlow ∨ c.blankAfter 1) then l.value
  else if ch = '*' then l.label .alias
  else if ch = '&' then l.label .anchor
  else if ch = '!' then l.tag
  else if ch = '|' ∧ !l.inFlow then l.block .literal
  else if ch = '>' ∧ !l.inFlow then l.block .folded
  else if ch = '\'' ∨ ch = '"' then l.quoted ch
  else if l.beginsPlain ch then l.plain
  else none

def run : Nat → Layout → Option (Array Token)
  | 0, _ => none
  | fuel + 1, l => do
    let l ← (l.gap l.cursor.fuel).dropStale
    let l := l.unroll l.cursor.column
    match l.cursor.rest with
    | [] => (l.streamEnd).map (·.tokens)
    | ch :: _ => run fuel (← l.token ch)

end Layout

def tokens? (text : String) : Option (Array Token) :=
  let cs := text.toList
  if cs.all isPrintable then Layout.run (cs.length + 2) (Layout.ofText cs) else none

end DesignProcess.Yaml
