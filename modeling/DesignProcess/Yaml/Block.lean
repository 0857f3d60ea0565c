import DesignProcess.Yaml.Cursor

namespace DesignProcess.Yaml.Block

inductive Chomping
  | strip
  | clip
  | keep
deriving DecidableEq

structure Header where
  chomping : Chomping
  increment : Nat

def chomping? (c : Cursor) : Option Chomping :=
  if c.looksAt '+' then some .keep else if c.looksAt '-' then some .strip else none

def increment? (c : Cursor) : Option (Nat × Cursor) :=
  match c.rest with
  | ch :: _ =>
    if ch == '0' then none
    else if ch.isDigit then some (ch.toNat - '0'.toNat, c.skip 1)
    else some (0, c)
  | [] => some (0, c)

def header? (c : Cursor) : Option (Header × Cursor) :=
  match chomping? c with
  | some m => (increment? (c.skip 1)).map fun (n, c) => (⟨m, n⟩, c)
  | none => do
    let (n, after) ← increment? c
    if n = 0 then some (⟨.clip, 0⟩, after)
    else match chomping? after with
      | some m => some (⟨m, n⟩, after.skip 1)
      | none => some (⟨.clip, n⟩, after)

def lineEnd? (c : Cursor) : Option Cursor :=
  let c := c.skipWhile isSpaceOrTab
  let c := if c.looksAt '#' then c.skipWhile (!isBreak ·) else c
  if c.breakOrEnd then some c.lineBreak.2 else none

/-- Passes empty lines and indentation up to the column `indent`, any when that is zero. Returns
the line breaks and the greatest column that was reached. -/
def margin (indent : Nat) : Nat → Cursor → List Char → Nat → Option (Cursor × List Char × Nat)
  | 0, c, breaks, widest => some (c, breaks, widest)
  | fuel + 1, c, breaks, widest =>
    let spaces := (c.rest.takeWhile (· == ' ')).length
    let c := c.skip (if indent = 0 then spaces else min spaces (indent - c.column))
    let widest := max widest c.column
    if (indent = 0 || c.column < indent) && c.looksAt '\t' then none
    else if c.next isBreak then
      let (kept, c) := c.lineBreak
      margin indent fuel c (breaks ++ kept) widest
    else some (c, breaks, widest)

structure Lines where
  /-- Last character first. -/
  text : List Char
  last : List Char
  empty : List Char
  blank : Bool

/-- Joins the last line with one that begins with a blank or does not. A folded scalar has a space
in place of a single break between two lines that begin with none. -/
def Lines.join (l : Lines) (literal blank : Bool) : List Char :=
  if !literal && l.last == ['\n'] && !l.blank && !blank then
    (if l.empty.isEmpty then [' '] else l.empty)
  else l.last ++ l.empty

def lines (literal : Bool) (indent : Nat) : Nat → Cursor → Lines → Option (Cursor × Lines)
  | 0, c, l => some (c, l)
  | fuel + 1, c, l =>
    if c.column = indent ∧ !c.atEnd then do
      let blank := c.next isSpaceOrTab
      let content := c.rest.takeWhile (!isBreak ·)
      let text := content.reverse ++ ((l.join literal blank).reverse ++ l.text)
      let (last, c) := (c.skip content.length).lineBreak
      let (c, empty, _) ← margin indent c.fuel c [] 0
      lines literal indent fuel c ⟨text, last, empty, blank⟩
    else some (c, l)

def Lines.chomp (l : Lines) : Chomping → List Char
  | .strip => []
  | .clip => l.last
  | .keep => l.last ++ l.empty

def content? (literal : Bool) (parent : Int) (c : Cursor) : Option (Cursor × String) := do
  let (header, c) ← header? (c.skip 1)
  let c ← lineEnd? c
  let given := if header.increment = 0 then 0 else (max parent 0).toNat + header.increment
  let (c, empty, widest) ← margin given c.fuel c [] 0
  let indent := if given = 0 then max (max widest (parent + 1).toNat) 1 else given
  let (c, l) ← lines literal indent c.fuel c ⟨[], [], empty, false⟩
  some (c, String.ofList (l.text.reverse ++ l.chomp header.chomping))

end DesignProcess.Yaml.Block
