import DesignProcess.Toml.Atom

namespace DesignProcess.Toml.Quoted

def isTextChar (c : Char) : Bool := c == '\t' || (c.toNat ≥ 0x20 && c.toNat != 0x7F)

def unicode? (digits : List Char) : Option Char :=
  let n := Atom.natInBase 16 digits
  if digits.all Atom.isHexDigit && n.isValidChar then some (Char.ofNat n) else none

def escape? : Char → Option Char
  | 'b' => some '\x08'
  | 't' => some '\t'
  | 'n' => some '\n'
  | 'f' => some '\x0c'
  | 'r' => some '\r'
  | 'e' => some '\x1b'
  | '"' => some '"'
  | '\\' => some '\\'
  | _ => none

abbrev Cut := List Char × List Char

def Cut.push (c : Option Char) (r : Option Cut) : Option Cut := do
  let c ← c
  let (content, rest) ← r
  some (c :: content, rest)

def basic : List Char → Option Cut
  | [] => none
  | '"' :: r => some ([], r)
  | '\\' :: 'x' :: a :: b :: r => Cut.push (unicode? [a, b]) (basic r)
  | '\\' :: 'u' :: a :: b :: c :: d :: r => Cut.push (unicode? [a, b, c, d]) (basic r)
  | '\\' :: 'U' :: a :: b :: c :: d :: e :: f :: g :: h :: r =>
    Cut.push (unicode? [a, b, c, d, e, f, g, h]) (basic r)
  | '\\' :: c :: r => Cut.push (escape? c) (basic r)
  | c :: r => if isTextChar c && c != '\\' then Cut.push (some c) (basic r) else none

def literal : List Char → Option Cut
  | [] => none
  | '\'' :: r => some ([], r)
  | c :: r => if isTextChar c then Cut.push (some c) (literal r) else none

def endsLine (cs : List Char) : Bool :=
  match cs.dropWhile (fun c => c == ' ' || c == '\t') with
  | '\n' :: _ => true
  | '\r' :: '\n' :: _ => true
  | _ => false

/-- A string on several lines. While `trimming`, after a backslash at the end of a line, white
space and line ends are left out. -/
def basicLines : Bool → List Char → Option Cut
  | _, [] => none
  | _, '"' :: '"' :: '"' :: '"' :: '"' :: r => some (['"', '"'], r)
  | _, '"' :: '"' :: '"' :: '"' :: r => some (['"'], r)
  | _, '"' :: '"' :: '"' :: r => some ([], r)
  | _, '\\' :: 'x' :: a :: b :: r => Cut.push (unicode? [a, b]) (basicLines false r)
  | _, '\\' :: 'u' :: a :: b :: c :: d :: r =>
    Cut.push (unicode? [a, b, c, d]) (basicLines false r)
  | _, '\\' :: 'U' :: a :: b :: c :: d :: e :: f :: g :: h :: r =>
    Cut.push (unicode? [a, b, c, d, e, f, g, h]) (basicLines false r)
  | trimming, '\r' :: '\n' :: r =>
    if trimming then basicLines true r
    else Cut.push (some '\r') (Cut.push (some '\n') (basicLines false r))
  | _, '\\' :: c :: r =>
    if endsLine (c :: r) then basicLines true (c :: r)
    else Cut.push (escape? c) (basicLines false r)
  | trimming, c :: r =>
    if trimming && (c == ' ' || c == '\t' || c == '\n') then basicLines true r
    else if c == '\n' || (isTextChar c && c != '\\') then Cut.push (some c) (basicLines false r)
    else none

def literalLines : List Char → Option Cut
  | [] => none
  | '\'' :: '\'' :: '\'' :: '\'' :: '\'' :: r => some (['\'', '\''], r)
  | '\'' :: '\'' :: '\'' :: '\'' :: r => some (['\''], r)
  | '\'' :: '\'' :: '\'' :: r => some ([], r)
  | '\r' :: '\n' :: r => Cut.push (some '\r') (Cut.push (some '\n') (literalLines r))
  | c :: r =>
    if c == '\n' || isTextChar c then Cut.push (some c) (literalLines r) else none

def dropLineEnd : List Char → List Char
  | '\n' :: r => r
  | '\r' :: '\n' :: r => r
  | cs => cs

end DesignProcess.Toml.Quoted
