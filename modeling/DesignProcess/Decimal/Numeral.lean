namespace DesignProcess.Decimal

def natOfDigits (cs : List Char) : Nat := Nat.ofDigitChars 10 cs 0

/-- The binary64 value nearest to `n * 10 ^ e`. Outside the powers of ten that a binary64 can
reach the answer is known from the size alone. -/
def nearest (n : Nat) (e : Int) : Float :=
  if n = 0 then 0
  else
    let size := ((Nat.toDigits 10 n).length : Int) + e
    if 400 < size then 1 / 0
    else if size < -400 then 0
    else Float.ofScientific n (e < 0) e.natAbs

structure Numeral where
  whole : List Char
  fraction : List Char
  exponent : Int
deriving DecidableEq, Repr

def Numeral.toFloat (n : Numeral) : Float :=
  nearest (natOfDigits (n.whole ++ n.fraction)) (n.exponent - n.fraction.length)

def exponent? (cs : List Char) : Option Int :=
  let digits := match cs with
    | '+' :: r => r
    | '-' :: r => r
    | _ => cs
  if digits.isEmpty || !digits.all Char.isDigit then none
  else if cs.head? = some '-' then some (-(natOfDigits digits : Int))
  else some (natOfDigits digits)

def isExponentMark (c : Char) : Bool := c == 'e' || c == 'E'

def Numeral.ofText? (cs : List Char) : Option Numeral :=
  let whole := cs.takeWhile Char.isDigit
  let tail := cs.dropWhile Char.isDigit
  let fraction := match tail with
    | '.' :: r => r.takeWhile Char.isDigit
    | _ => []
  let rest := match tail with
    | '.' :: r => r.dropWhile Char.isDigit
    | _ => tail
  if whole.isEmpty && fraction.isEmpty then none
  else match rest with
    | [] => some ⟨whole, fraction, 0⟩
    | c :: r =>
      if isExponentMark c then (exponent? r).map fun e => ⟨whole, fraction, e⟩ else none

def float? : List Char → Option Float
  | '-' :: cs => (Numeral.ofText? cs).map fun n => -n.toFloat
  | '+' :: cs => (Numeral.ofText? cs).map Numeral.toFloat
  | cs => (Numeral.ofText? cs).map Numeral.toFloat

def int64? (n : Int) : Option Int64 :=
  if Int64.minValue.toInt ≤ n ∧ n ≤ Int64.maxValue.toInt then some (Int64.ofInt n) else none

def fitsWord (bits : Nat) (n : Int) : Bool :=
  -(Nat.pow 2 (bits - 1) : Int) ≤ n && n < (Nat.pow 2 bits : Int)

end DesignProcess.Decimal
