/-!
The fewest decimal digits that still denote one binary64 value, and among those the nearest.

A positive value is `mantissa * 2 ^ exponent`. The reals that round to it form an interval whose
ends belong to it exactly when the mantissa is even. Grids of 1, 2, … 17 digits are tried in
turn, on each the two neighbours of the value.
-/

namespace DesignProcess.Decimal

structure Dyadic where
  mantissa : Nat
  exponent : Int
deriving DecidableEq, Repr

structure Scaled where
  significand : Nat
  exponent : Int
deriving DecidableEq, Repr

def Dyadic.ofBits (bits : UInt64) : Dyadic :=
  let fraction : Nat := bits.toNat % Nat.pow 2 52
  let biased : Nat := bits.toNat / Nat.pow 2 52 % Nat.pow 2 11
  if biased = 0 then ⟨fraction, -1074⟩ else ⟨fraction + Nat.pow 2 52, (biased : Int) - 1075⟩

structure Rounding where
  low : Nat
  middle : Nat
  high : Nat
  unit : Nat
  closed : Bool

/-- Below a power of two the neighbour is only half as far away. -/
def Dyadic.rounding (d : Dyadic) : Rounding :=
  let below := if d.mantissa = Nat.pow 2 52 ∧ d.exponent ≠ -1074 then 1 else 2
  let scale := Nat.pow 2 (d.exponent - 2).toNat
  { low := (4 * d.mantissa - below) * scale
    middle := 4 * d.mantissa * scale
    high := (4 * d.mantissa + 2) * scale
    unit := Nat.pow 2 (2 - d.exponent).toNat
    closed := d.mantissa % 2 = 0 }

def Rounding.scaled (r : Rounding) (k : Int) : Rounding :=
  let up := Nat.pow 10 (-k).toNat
  { r with
    low := r.low * up
    middle := r.middle * up
    high := r.high * up
    unit := r.unit * Nat.pow 10 k.toNat }

def Rounding.holds (r : Rounding) (n : Nat) : Bool :=
  if r.closed then r.low ≤ n * r.unit && n * r.unit ≤ r.high
  else r.low < n * r.unit && n * r.unit < r.high

/-- The grid point of the interval that is nearest to its middle; of two equally near ones the
greater. -/
def Rounding.nearest? (r : Rounding) : Option Nat :=
  let below := r.middle / r.unit
  let above := below + 1
  match r.holds below, r.holds above with
  | true, true =>
    some (if above * r.unit - r.middle ≤ r.middle - below * r.unit then above else below)
  | true, false => some below
  | false, true => some above
  | false, false => none

def digitCount (n : Nat) : Nat := (Nat.toDigits 10 n).length

def Rounding.leading (r : Rounding) : Int :=
  if r.unit ≤ r.middle then (digitCount (r.middle / r.unit) : Int) - 1
  else
    let k := digitCount (r.unit / r.middle)
    if r.unit ≤ r.middle * Nat.pow 10 (k - 1) then 1 - (k : Int) else -(k : Int)

def stripZeros : Nat → Scaled → Scaled
  | 0, d => d
  | fuel + 1, d =>
    if d.significand % 10 = 0 then stripZeros fuel ⟨d.significand / 10, d.exponent + 1⟩ else d

def Rounding.search (r : Rounding) (leading : Int) : Nat → Nat → Option Scaled
  | 0, _ => none
  | tries + 1, digits =>
    let k := leading + 1 - digits
    match (r.scaled k).nearest? with
    | some n => some (stripZeros 20 ⟨n, k⟩)
    | none => r.search leading tries (digits + 1)

def Dyadic.shortest (d : Dyadic) : Scaled :=
  let r := d.rounding
  (r.search r.leading 17 1).getD ⟨d.mantissa, 0⟩

end DesignProcess.Decimal
