import DesignProcess.Decimal.Shortest

namespace DesignProcess.Decimal

structure Layout where
  positional : Int → Bool
  wholeMark : Bool

def literal : Layout := ⟨fun e => -4 ≤ e && e < 16, true⟩

def plain : Layout := ⟨fun _ => true, false⟩

def Layout.point (l : Layout) (digits : List Char) (exponent : Int) : List Char :=
  if 0 ≤ exponent then
    digits ++ List.replicate exponent.toNat '0' ++ if l.wholeMark then ['.', '0'] else []
  else
    let places := (-exponent).toNat
    if places < digits.length then
      digits.take (digits.length - places) ++ '.' :: digits.drop (digits.length - places)
    else '0' :: '.' :: (List.replicate (places - digits.length) '0' ++ digits)

def signed (n : Int) : List Char :=
  if n < 0 then '-' :: Nat.toDigits 10 n.natAbs else Nat.toDigits 10 n.natAbs

def scientific (digits : List Char) (exponent : Int) : List Char :=
  let power := exponent + digits.length - 1
  digits.take 1 ++ (if digits.length = 1 then [] else '.' :: digits.drop 1) ++ 'e' :: signed power

def Layout.decimal (l : Layout) (d : Scaled) : List Char :=
  let digits := Nat.toDigits 10 d.significand
  if l.positional (d.exponent + digits.length - 1) then l.point digits d.exponent
  else scientific digits d.exponent

def Layout.magnitude (l : Layout) (bits : UInt64) : List Char :=
  let d := Dyadic.ofBits bits
  if d.mantissa = 0 then l.point ['0'] 0 else l.decimal d.shortest

def Layout.text (l : Layout) (x : Float) : List Char :=
  if x.isNaN then ['N', 'a', 'N']
  else
    let sign := if Nat.pow 2 63 ≤ x.toBits.toNat then ['-'] else []
    sign ++ if x.isInf then ['i', 'n', 'f'] else l.magnitude x.toBits

def Layout.render (l : Layout) (x : Float) : String := String.ofList (l.text x)

end DesignProcess.Decimal
