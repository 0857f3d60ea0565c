namespace DesignProcess

inductive Segment
  | key (name : String)
  | index (i : Nat)
deriving DecidableEq, Repr

structure KeyPath where
  segments : List Segment
deriving DecidableEq, Repr

namespace KeyPath

def root : KeyPath := ⟨[]⟩

def key (p : KeyPath) (name : String) : KeyPath := ⟨p.segments ++ [.key name]⟩

def index (p : KeyPath) (i : Nat) : KeyPath := ⟨p.segments ++ [.index i]⟩

def indexText (i : Nat) : List Char := '[' :: (Nat.toDigits 10 i ++ [']'])

def furtherText : List Segment → List Char
  | [] => []
  | .key name :: rest => '.' :: (name.toList ++ furtherText rest)
  | .index i :: rest => indexText i ++ furtherText rest

def text : List Segment → List Char
  | [] => "<document root>".toList
  | .key name :: rest => name.toList ++ furtherText rest
  | .index i :: rest => indexText i ++ furtherText rest

def render (p : KeyPath) : String := String.ofList (text p.segments)

def ofText (s : String) : KeyPath :=
  ⟨((s.toList.splitOn '.').filter (· ≠ [])).map fun cs => .key (String.ofList cs)⟩

end KeyPath

end DesignProcess
