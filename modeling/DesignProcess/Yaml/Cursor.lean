import DesignProcess.Text.Bytes

namespace DesignProcess.Yaml

def isSpaceOrTab (c : Char) : Bool := c == ' ' || c == '\t'

def isBreak (c : Char) : Bool :=
  c == '\n' || c == '\r' || c == '\u0085' || c == '\u2028' || c == '\u2029'

def isBlankOrBreak (c : Char) : Bool := isSpaceOrTab c || isBreak c

def isWord (c : Char) : Bool := c.isAlphanum || c == '_' || c == '-'

def isPrintable (c : Char) : Bool :=
  let n := c.toNat
  n == 0x09 || n == 0x0A || n == 0x0D || (0x20 ≤ n && n ≤ 0x7E) || n == 0x85 ||
    (0xA0 ≤ n && n ≤ 0xD7FF) || (0xE000 ≤ n && n ≤ 0xFFFD) || 0x10000 ≤ n

structure Cursor where
  rest : List Char
  offset : Nat
  line : Nat
  column : Nat

namespace Cursor

/-- Fuel for a loop that reads at least one character in each round. -/
def fuel (c : Cursor) : Nat := c.rest.length + 1

def atEnd (c : Cursor) : Bool := c.rest.isEmpty

def next (c : Cursor) (p : Char → Bool) : Bool := c.rest.head?.any p

def looksAt (c : Cursor) (ch : Char) : Bool := c.next (· == ch)

def blankAfter (c : Cursor) (n : Nat) : Bool := (c.rest.drop n).head?.all isBlankOrBreak

def breakOrEnd (c : Cursor) : Bool := c.rest.head?.all isBreak

def skip (c : Cursor) (n : Nat) : Cursor :=
  { c with
    rest := c.rest.drop n
    offset := c.offset + Text.byteLength (c.rest.take n)
    column := c.column + n }

def skipWhile (c : Cursor) (p : Char → Bool) : Cursor := c.skip (c.rest.takeWhile p).length

def lineBreak (c : Cursor) : List Char × Cursor :=
  let pass (n : Nat) (kept : List Char) : List Char × Cursor :=
    (kept, { c.skip n with line := c.line + 1, column := 0 })
  match c.rest with
  | '\r' :: '\n' :: _ => pass 2 ['\n']
  | '\u2028' :: _ => pass 1 ['\u2028']
  | '\u2029' :: _ => pass 1 ['\u2029']
  | ch :: _ => if isBreak ch then pass 1 ['\n'] else ([], c)
  | [] => ([], c)

def marks (c : Cursor) (ch : Char) : Bool :=
  c.column == 0 && c.rest.take 3 == [ch, ch, ch] && c.blankAfter 3

def atDocumentMark (c : Cursor) : Bool := c.marks '-' || c.marks '.'

end Cursor

structure Gap where
  broken : Bool
  blanks : List Char
  first : List Char
  more : List Char

namespace Gap

def none : Gap := ⟨false, [], [], []⟩

def fold (g : Gap) : List Char :=
  if !g.broken then g.blanks
  else if g.first == ['\n'] then (if g.more.isEmpty then [' '] else g.more)
  else g.first ++ g.more

/-- Reads blanks and line breaks. Behind a break, tabs left of the column `limit` are refused. -/
def read (limit : Nat) : Nat → Cursor → Gap → Option (Cursor × Gap)
  | 0, c, g => some (c, g)
  | fuel + 1, c, g =>
    match c.rest with
    | [] => some (c, g)
    | ch :: _ =>
      if isSpaceOrTab ch then
        if g.broken && c.column < limit && ch == '\t' then Option.none
        else
          read limit fuel (c.skip 1) (if g.broken then g else { g with blanks := g.blanks ++ [ch] })
      else if isBreak ch then
        let (kept, c) := c.lineBreak
        read limit fuel c
          (if g.broken then { g with more := g.more ++ kept }
          else { broken := true, blanks := [], first := kept, more := g.more })
      else some (c, g)

end Gap

end DesignProcess.Yaml
