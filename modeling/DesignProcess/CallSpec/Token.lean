namespace DesignProcess.CallSpec

inductive Token
  | lparen
  | rparen
  | comma
  | equals
  | dot
  | minus
  | plus
  | boolean (value : Bool)
  | ident (name : String)
  | integer (digits : String)
  | float (digits : String)
  | str (content : String)
deriving DecidableEq, Repr

structure Placed where
  offset : Nat
  token : Token
deriving DecidableEq, Repr

def isGap (c : Char) : Bool := c == ' ' || c == '\t' || c == '\r' || c == '\n'

def isNameStart (c : Char) : Bool := c.isAlpha || c == '_'

def isNameChar (c : Char) : Bool := c.isAlphanum || c == '_'

namespace Token

def describe : Token → String
  | lparen => "'('"
  | rparen => "')'"
  | comma => "','"
  | equals => "'='"
  | dot => "'.'"
  | minus => "'-'"
  | plus => "'+'"
  | boolean _ => "a boolean"
  | ident name => s!"identifier '{name}'"
  | integer _ => "a number"
  | float _ => "a number"
  | str _ => "a string"

def ofWord (w : List Char) : Token :=
  if w = "true".toList ∨ w = "True".toList then boolean true
  else if w = "false".toList ∨ w = "False".toList then boolean false
  else ident (String.ofList w)

abbrev Cut := List Char × List Char

def sign : List Char → Cut
  | '+' :: r => (['+'], r)
  | '-' :: r => (['-'], r)
  | cs => ([], cs)

def exponent : List Char → Cut
  | [] => ([], [])
  | c :: r =>
    let (s, tail) := sign r
    let digits := tail.takeWhile Char.isDigit
    if (c = 'e' ∨ c = 'E') ∧ digits ≠ [] then (c :: (s ++ digits), tail.dropWhile Char.isDigit)
    else ([], c :: r)

def fraction : List Char → Cut
  | '.' :: r =>
    let (e, rest) := exponent (r.dropWhile Char.isDigit)
    ('.' :: (r.takeWhile Char.isDigit ++ e), rest)
  | cs => exponent cs

def number (cs : List Char) : Token × List Char :=
  let digits := cs.takeWhile Char.isDigit
  match fraction (cs.dropWhile Char.isDigit) with
  | ([], rest) => (integer (String.ofList digits), rest)
  | (f, rest) => (float (String.ofList (digits ++ f)), rest)

def isContent (quote c : Char) : Bool := c != quote && c != '\\' && c != '\n'

def quoted? (quote : Char) (cs : List Char) : Option (Token × List Char) :=
  match cs.dropWhile (isContent quote) with
  | [] => none
  | c :: rest =>
    if c = quote then some (str (String.ofList (cs.takeWhile (isContent quote))), rest) else none

def dotted (r : List Char) : Token × List Char :=
  if (r.head?.any Char.isDigit) then
    let (f, rest) := fraction ('.' :: r)
    (float (String.ofList f), rest)
  else (dot, r)

def symbol? : Char → Option Token
  | '(' => some lparen
  | ')' => some rparen
  | ',' => some comma
  | '=' => some equals
  | '-' => some minus
  | '+' => some plus
  | _ => none

def next? : List Char → Option (Token × List Char)
  | [] => none
  | c :: r =>
    if isNameStart c then
      some (ofWord (c :: r.takeWhile isNameChar), r.dropWhile isNameChar)
    else if c.isDigit then some (number (c :: r))
    else if c = '.' then some (dotted r)
    else if c = '\'' ∨ c = '"' then quoted? c r
    else (symbol? c).map fun t => (t, r)

def unreadable : List Char → List Char
  | [] => []
  | c :: r =>
    if c = '\'' ∨ c = '"' then c :: r.takeWhile (isContent c) else [c]

theorem length_dropWhile_le (p : Char → Bool) (cs : List Char) :
    (cs.dropWhile p).length ≤ cs.length :=
  (List.dropWhile_suffix p).length_le

theorem length_sign_le (cs : List Char) : (sign cs).2.length ≤ cs.length := by
  unfold sign
  split <;> simp

theorem length_exponent_le (cs : List Char) : (exponent cs).2.length ≤ cs.length := by
  cases cs with
  | nil => simp [exponent]
  | cons c r =>
    have hs := length_sign_le r
    have hd := length_dropWhile_le Char.isDigit (sign r).2
    simp only [exponent]
    split
    · simp only [List.length_cons]; omega
    · simp

theorem length_fraction_le (cs : List Char) : (fraction cs).2.length ≤ cs.length := by
  unfold fraction
  split
  · rename_i r
    have he := length_exponent_le (r.dropWhile Char.isDigit)
    have hd := length_dropWhile_le Char.isDigit r
    simp only [List.length_cons]
    omega
  · exact length_exponent_le cs

theorem length_number_lt {c : Char} {r : List Char} (h : c.isDigit = true) :
    (number (c :: r)).2.length < (c :: r).length := by
  have hf := length_fraction_le (r.dropWhile Char.isDigit)
  have hd := length_dropWhile_le Char.isDigit r
  have hc : (c :: r).dropWhile Char.isDigit = r.dropWhile Char.isDigit := by simp [h]
  simp only [number, hc, List.length_cons]
  split <;> rename_i hx <;> rw [hx] at hf <;> simp only at hf ⊢ <;> omega

theorem length_quoted_lt {quote : Char} {cs rest : List Char} {t : Token}
    (h : quoted? quote cs = some (t, rest)) : rest.length < cs.length := by
  have hd := length_dropWhile_le (isContent quote) cs
  unfold quoted? at h
  split at h
  · simp at h
  · rename_i c tail hx
    rw [hx] at hd
    split at h
    · simp only [Option.some.injEq, Prod.mk.injEq] at h
      rw [← h.2]
      simp only [List.length_cons] at hd
      omega
    · simp at h

theorem length_dotted_lt (r : List Char) : (dotted r).2.length < r.length + 1 := by
  have he := length_exponent_le (r.dropWhile Char.isDigit)
  have hd := length_dropWhile_le Char.isDigit r
  unfold dotted
  split
  · simp only [fraction]
    omega
  · simp

theorem length_next_lt {cs rest : List Char} {t : Token} (h : next? cs = some (t, rest)) :
    rest.length < cs.length := by
  cases cs with
  | nil => simp [next?] at h
  | cons c r =>
    simp only [next?] at h
    split at h
    · have hd := length_dropWhile_le isNameChar r
      simp only [Option.some.injEq, Prod.mk.injEq] at h
      rw [← h.2, List.length_cons]
      omega
    · split at h
      · rename_i hc
        have hn := length_number_lt (r := r) hc
        rw [Option.some.inj h] at hn
        exact hn
      · split at h
        · have hd := length_dotted_lt r
          rw [Option.some.inj h] at hd
          exact hd
        · split at h
          · have hq := length_quoted_lt h
            rw [List.length_cons]
            omega
          · cases hs : symbol? c with
            | none => simp [hs] at h
            | some s =>
              simp only [hs, Option.map_some, Option.some.injEq, Prod.mk.injEq] at h
              rw [← h.2, List.length_cons]
              omega

end Token

end DesignProcess.CallSpec
