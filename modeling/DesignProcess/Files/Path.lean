/-!
Paths as they are written: names between slashes. Joining keeps all that was written, so `.`, `..`
and repeated slashes stay.
-/

namespace DesignProcess

structure Path where
  text : String
deriving DecidableEq, Repr

namespace Path

def empty : Path := ⟨""⟩

def isAbsolute (p : Path) : Bool := p.text.toList.head? == some '/'

def isRelative (p : Path) : Bool := !p.isAbsolute

def parts (p : Path) : List String := (p.text.toList.splitOn '/').map String.ofList

/-- The parts that name something. A dot does so only at the beginning of a relative path. -/
def components (p : Path) : List String :=
  (p.parts.take 1 ++ p.parts.tail.filter (· ≠ ".")).filter (· ≠ "")

def same (p q : Path) : Bool := p.isAbsolute == q.isAbsolute && p.components == q.components

def ofParts (parts : List String) : Path := ⟨String.intercalate "/" parts⟩

def join (base p : Path) : Path :=
  if p.isAbsolute || base.text.isEmpty then p
  else if base.text.toList.getLast? = some '/' then ⟨base.text ++ p.text⟩
  else ⟨base.text ++ "/" ++ p.text⟩

def resolve (base : Option Path) (p : Path) : Path :=
  match base with
  | some b => if p.isRelative then b.join p else p
  | none => p

def dropFiller (absolute : Bool) : List String → List String
  | [] => []
  | part :: before =>
    if part = "" ∨ (part = "." ∧ (absolute ∨ before ≠ [])) then dropFiller absolute before
    else part :: before

def backwards (p : Path) : List String :=
  if p.isAbsolute then dropFiller true p.parts.tail.reverse else dropFiller false p.parts.reverse

def ofBackwards (absolute : Bool) (parts : List String) : Path :=
  let body := ofParts (dropFiller absolute parts).reverse
  if absolute then ⟨"/" ++ body.text⟩ else body

def parent? (p : Path) : Option Path :=
  match p.backwards with
  | [] => none
  | _ :: before => some (ofBackwards p.isAbsolute before)

def parent (p : Path) : Path := p.parent?.getD empty

def fileName? (p : Path) : Option String :=
  p.backwards.head?.filter fun part => part ≠ ".." ∧ part ≠ "."

def extensionOf (name : String) : Option String :=
  let cs := name.toList.reverse
  match cs.dropWhile (· ≠ '.') with
  | _ :: _ :: _ => some (String.ofList (cs.takeWhile (· ≠ '.')).reverse)
  | _ => none

def extension? (p : Path) : Option String := p.fileName?.bind extensionOf

end Path

def lowerAscii (s : String) : String := String.ofList (s.toList.map Char.toLower)

end DesignProcess
