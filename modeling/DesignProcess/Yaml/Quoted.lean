import DesignProcess.Toml.Atom
import DesignProcess.Yaml.Cursor

namespace DesignProcess.Yaml.Quoted

inductive Escape
  | char (c : Char)
  | code (digits : Nat)

def escape? : Char → Option Escape
  | '0' => some (.char '\x00')
  | 'a' => some (.char '\x07')
  | 'b' => some (.char '\x08')
  | 't' => some (.char '\t')
  | '\t' => some (.char '\t')
  | 'n' => some (.char '\n')
  | 'v' => some (.char '\x0b')
  | 'f' => some (.char '\x0c')
  | 'r' => some (.char '\r')
  | 'e' => some (.char '\x1b')
  | ' ' => some (.char ' ')
  | '"' => some (.char '"')
  | '/' => some (.char '/')
  | '\\' => some (.char '\\')
  | 'N' => some (.char '\u0085')
  | '_' => some (.char '\u00a0')
  | 'L' => some (.char '\u2028')
  | 'P' => some (.char '\u2029')
  | 'x' => some (.code 2)
  | 'u' => some (.code 4)
  | 'U' => some (.code 8)
  | _ => none

def unicode? (count : Nat) (cs : List Char) : Option Char :=
  let digits := cs.take count
  let n := Toml.Atom.natInBase 16 digits
  if digits.length = count && digits.all Toml.Atom.isHexDigit && n.isValidChar then
    some (Char.ofNat n)
  else none

def unescape (c : Cursor) : Option (Char × Cursor) :=
  match c.rest with
  | _ :: ch :: r =>
    match escape? ch with
    | none => none
    | some (.char x) => some (x, c.skip 2)
    | some (.code count) => (unicode? count r).map fun x => (x, c.skip (2 + count))
  | _ => none

def run (quote : Char) : Nat → Cursor → List Char → Option (Cursor × List Char × Bool)
  | 0, _, _ => none
  | fuel + 1, c, text =>
    match c.rest with
    | [] => some (c, text, false)
    | ch :: r =>
      if isBlankOrBreak ch then some (c, text, false)
      else if ch = quote then
        if quote = '\'' ∧ r.head? = some '\'' then run quote fuel (c.skip 2) ('\'' :: text)
        else some (c, text, false)
      else if quote = '"' ∧ ch = '\\' then
        if r.head?.any isBreak then some ((c.skip 1).lineBreak.2, text, true)
        else do
          let (x, c) ← unescape c
          run quote fuel c (x :: text)
      else run quote fuel (c.skip 1) (ch :: text)

def read (quote : Char) : Nat → Cursor → List Char → Option (Cursor × List Char)
  | 0, _, _ => none
  | fuel + 1, c, text =>
    if c.atDocumentMark || c.atEnd then none
    else do
      let (c, text, escaped) ← run quote c.fuel c text
      if c.looksAt quote then some (c.skip 1, text)
      else
        let (c, gap) ← Gap.read 0 c.fuel c { Gap.none with broken := escaped }
        read quote fuel c (gap.fold.reverse ++ text)

def content? (quote : Char) (c : Cursor) : Option (Cursor × String) :=
  (read quote c.fuel c []).map fun (c, text) => (c, String.ofList text.reverse)

end DesignProcess.Yaml.Quoted
