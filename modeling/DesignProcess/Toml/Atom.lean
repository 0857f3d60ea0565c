import DesignProcess.Decimal.Numeral
import DesignProcess.Toml.Value

namespace DesignProcess.Toml.Atom

def ungroup? (p : Char → Bool) : List Char → Option (List Char)
  | [] => none
  | [c] => if p c then some [c] else none
  | c :: '_' :: r => if p c then (ungroup? p r).map (c :: ·) else none
  | c :: r => if p c then (ungroup? p r).map (c :: ·) else none

def isGrouped (c : Char) : Bool := c.isDigit || c == '_'

def whole? (cs : List Char) : Option (List Char) :=
  match ungroup? Char.isDigit cs with
  | some ['0'] => some ['0']
  | some ('0' :: _) => none
  | digits => digits

def exponent? (cs : List Char) : Option Int :=
  match cs with
  | '-' :: r => (ungroup? Char.isDigit r).map fun d => -(Decimal.natOfDigits d : Int)
  | '+' :: r => (ungroup? Char.isDigit r).map fun d => (Decimal.natOfDigits d : Int)
  | r => (ungroup? Char.isDigit r).map fun d => (Decimal.natOfDigits d : Int)

def hexDigit (c : Char) : Nat :=
  if c.isDigit then c.toNat - '0'.toNat
  else if 'a' ≤ c then c.toNat - 'a'.toNat + 10 else c.toNat - 'A'.toNat + 10

def isHexDigit (c : Char) : Bool :=
  c.isDigit || ('a' ≤ c && c ≤ 'f') || ('A' ≤ c && c ≤ 'F')

def natInBase (base : Nat) (digits : List Char) : Nat :=
  digits.foldl (fun n c => base * n + hexDigit c) 0

def based (base : Nat) (p : Char → Bool) (cs : List Char) : Option Value :=
  (ungroup? p cs).map fun d => .integer (natInBase base d)

def float (negative : Bool) (n : Decimal.Numeral) : Value :=
  let x := n.toFloat
  if x.isInf then .overflow else .float (if negative then -x else x)

def withExponent (negative : Bool) (whole fraction : List Char) : List Char → Option Value
  | [] => some (float negative ⟨whole, fraction, 0⟩)
  | c :: r =>
    if Decimal.isExponentMark c then do
      let e ← exponent? r
      some (float negative ⟨whole, fraction, e⟩)
    else none

def unsigned? (negative : Bool) (cs : List Char) : Option Value :=
  if cs = "inf".toList then some (.float (if negative then -(1 / 0) else 1 / 0))
  else if cs = "nan".toList then some (.float (0 / 0))
  else do
    let whole ← whole? (cs.takeWhile isGrouped)
    match cs.dropWhile isGrouped with
    | [] =>
      let n : Int := Decimal.natOfDigits whole
      some (.integer (if negative then -n else n))
    | '.' :: r =>
      let fraction ← ungroup? Char.isDigit (r.takeWhile isGrouped)
      withExponent negative whole fraction (r.dropWhile isGrouped)
    | r => withExponent negative whole [] r

def number? : List Char → Option Value
  | '0' :: 'x' :: r => based 16 isHexDigit r
  | '0' :: 'o' :: r => based 8 (fun c => '0' ≤ c && c ≤ '7') r
  | '0' :: 'b' :: r => based 2 (fun c => c == '0' || c == '1') r
  | '-' :: r => unsigned? true r
  | '+' :: r => unsigned? false r
  | r => unsigned? false r

def fixed? (count : Nat) (cs : List Char) : Option (Nat × List Char) :=
  let digits := cs.take count
  if digits.length = count && digits.all Char.isDigit then
    some (Decimal.natOfDigits digits, cs.drop count)
  else none

def expect? (c : Char) : List Char → Option (List Char)
  | [] => none
  | d :: r => if d = c then some r else none

def isLeapYear (year : Nat) : Bool := year % 4 == 0 && (year % 100 != 0 || year % 400 == 0)

def daysIn (year month : Nat) : Nat :=
  if month = 2 then (if isLeapYear year then 29 else 28)
  else if [4, 6, 9, 11].contains month then 30 else 31

def date? (cs : List Char) : Option (List Char) := do
  let (year, cs) ← fixed? 4 cs
  let (month, cs) ← fixed? 2 (← expect? '-' cs)
  let (day, cs) ← fixed? 2 (← expect? '-' cs)
  if 1 ≤ month ∧ month ≤ 12 ∧ 1 ≤ day ∧ day ≤ daysIn year month then some cs else none

def hoursMinutes? (cs : List Char) : Option (List Char) := do
  let (hour, cs) ← fixed? 2 cs
  let (minute, cs) ← fixed? 2 (← expect? ':' cs)
  if hour ≤ 23 ∧ minute ≤ 59 then some cs else none

def seconds? (cs : List Char) : Option (List Char) :=
  match cs with
  | ':' :: r => do
    let (second, rest) ← fixed? 2 r
    if 60 < second then none
    else match rest with
      | '.' :: f => if f.head?.any Char.isDigit then some (f.dropWhile Char.isDigit) else none
      | _ => some rest
  | _ => some cs

def time? (cs : List Char) : Option (List Char) := do seconds? (← hoursMinutes? cs)

def isOffset (cs : List Char) : Bool :=
  match cs with
  | [] => true
  | ['Z'] => true
  | ['z'] => true
  | '+' :: r => hoursMinutes? r == some []
  | '-' :: r => hoursMinutes? r == some []
  | _ => false

def isDatetime (cs : List Char) : Bool :=
  match date? cs with
  | some [] => true
  | some (c :: r) =>
    (c == 'T' || c == 't' || c == ' ') && (time? r).any isOffset
  | none => time? cs == some []

def value? (cs : List Char) : Option Value :=
  if cs = "true".toList then some (.boolean true)
  else if cs = "false".toList then some (.boolean false)
  else match number? cs with
    | some v => some v
    | none => if isDatetime cs then some .datetime else none

def isAtomChar (c : Char) : Bool :=
  c.isAlphanum || c == '_' || c == '+' || c == '-' || c == '.' || c == ':'

def cut (cs : List Char) : List Char × List Char :=
  let head := cs.takeWhile isAtomChar
  match cs.dropWhile isAtomChar with
  | ' ' :: c :: r =>
    if c.isDigit && date? head == some [] then
      (head ++ ' ' :: (c :: r).takeWhile isAtomChar, (c :: r).dropWhile isAtomChar)
    else (head, ' ' :: c :: r)
  | rest => (head, rest)

end DesignProcess.Toml.Atom
