/-!
# Decimal forms of floating-point numbers

Three rules relate a floating-point number to a decimal.  In a JSON document a
decimal is read as its digits, rounded to a number, and then scaled by a power of
ten; in a YAML document it is read as the number nearest to it.  A number is
written with the fewest digits that identify it among all numbers, and of these
with the digits nearest to it.
-/

namespace BehaviorTree

/-- The number `digits · 10 ^ exponent`. -/
structure Decimal where
  digits : Nat
  exponent : Int
deriving DecidableEq, Inhabited

namespace Decimal

/-- The power of ten nearest to `10 ^ exponent`. -/
def powerOfTen (exponent : Nat) : Float := Float.ofScientific 1 false exponent

/-- Largest exponent of a power of ten that is a finite number. -/
def largestPower : Nat := 308

/-- Divides by a power of ten, by the largest one as often as needed. -/
def scaleDown (value : Float) (exponent : Nat) : Float :=
  if exponent ≤ largestPower then value / powerOfTen exponent
  else if value == 0.0 then value
  else scaleDown (value / powerOfTen largestPower) (exponent - largestPower)
termination_by exponent
decreasing_by
  simp only [largestPower] at *
  omega

/-- The number that a decimal is read as, unless it is too large. -/
def toFloat? (decimal : Decimal) : Option Float :=
  let value := Float.ofNat decimal.digits
  if decimal.exponent < 0 then some (scaleDown value decimal.exponent.natAbs)
  else if decimal.exponent.natAbs ≤ largestPower then
    let scaled := value * powerOfTen decimal.exponent.natAbs
    if scaled.isFinite then some scaled else none
  else if value == 0.0 then some value
  else none

/-- The number nearest to a decimal, infinite beyond the largest one. -/
def nearest (decimal : Decimal) : Float :=
  let magnitude := (Nat.toDigits 10 decimal.digits).length + decimal.exponent
  if decimal.digits = 0 ∨ magnitude < -400 then 0.0
  else if 400 < magnitude then 1.0 / 0.0
  else Float.ofScientific decimal.digits (decimal.exponent < 0) decimal.exponent.natAbs

/-- A positive number `value / unit` with the ends of the interval of numbers
that are rounded to it. -/
structure Rounding where
  low : Nat
  value : Nat
  high : Nat
  unit : Nat
  /-- The ends belong to the interval. -/
  closed : Bool

/-- The rounding interval of a positive finite number.  The gap below a power of
two is half the gap above it, except at the smallest exponent. -/
def Rounding.ofFloat (value : Float) : Rounding :=
  let bits := value.toBits.toNat
  let fraction := bits % Nat.pow 2 52
  let biased := bits / Nat.pow 2 52 % Nat.pow 2 11
  let mantissa := if biased = 0 then fraction else fraction + Nat.pow 2 52
  let exponent : Int := (max biased 1 : Nat) - 1077
  let below := if fraction = 0 ∧ 1 < biased then 1 else 2
  let scale := if exponent < 0 then 1 else Nat.pow 2 exponent.natAbs
  { low := (4 * mantissa - below) * scale
    value := 4 * mantissa * scale
    high := (4 * mantissa + 2) * scale
    unit := if exponent < 0 then Nat.pow 2 exponent.natAbs else 1
    closed := mantissa % 2 = 0 }

namespace Rounding

/-- The interval in units of `10 ^ exponent`. -/
def onGrid (rounding : Rounding) (exponent : Int) : Rounding :=
  if exponent < 0 then
    let factor := Nat.pow 10 exponent.natAbs
    { rounding with
      low := rounding.low * factor
      value := rounding.value * factor
      high := rounding.high * factor }
  else { rounding with unit := rounding.unit * Nat.pow 10 exponent.natAbs }

/-- `true` if the whole number `point` lies in the interval. -/
def contains (rounding : Rounding) (point : Nat) : Bool :=
  let scaled := point * rounding.unit
  if rounding.closed then rounding.low ≤ scaled && scaled ≤ rounding.high
  else rounding.low < scaled && scaled < rounding.high

/-- The whole number of the interval nearest to the value, among the two
neighbours of the value; of two at the same distance the even one. -/
def nearest (rounding : Rounding) : Option Nat :=
  let floor := rounding.value / rounding.unit
  let offset := rounding.value % rounding.unit
  match rounding.contains floor, rounding.contains (floor + 1) with
  | true, true =>
    if 2 * offset < rounding.unit then some floor
    else if rounding.unit < 2 * offset then some (floor + 1)
    else some (if floor % 2 = 0 then floor else floor + 1)
  | true, false => some floor
  | false, true => some (floor + 1)
  | false, false => none

/-- Number of digits before the decimal point; zero or less if the value is
below one. -/
def magnitude (rounding : Rounding) : Int :=
  if rounding.unit ≤ rounding.value then
    (Nat.toDigits 10 (rounding.value / rounding.unit)).length
  else 1 - (leadingZeros rounding.value 400 : Nat)
where
  /-- Least number of tenfold increases that brings a number up to the unit. -/
  leadingZeros (value : Nat) : Nat → Nat
    | 0 => 0
    | fuel + 1 =>
      if rounding.unit ≤ value then 0 else leadingZeros (value * 10) fuel + 1

/-- The shortest decimal of the interval, tried with `count`, `count + 1`, …
digits. -/
def shortestFrom (rounding : Rounding) (magnitude : Int) (count : Nat) :
    Nat → Decimal
  | 0 => ⟨0, 0⟩
  | fuel + 1 =>
    let exponent := magnitude - count
    match (rounding.onGrid exponent).nearest with
    | some digits => ⟨digits, exponent⟩
    | none => shortestFrom rounding magnitude (count + 1) fuel

end Rounding

/-- Moves trailing zeros of the digits into the exponent. -/
def dropZeros (decimal : Decimal) : Decimal :=
  let digits := Nat.toDigits 10 decimal.digits
  let zeros := (digits.reverse.takeWhile (· = '0')).length
  ⟨decimal.digits / Nat.pow 10 zeros, decimal.exponent + zeros⟩

/-- The shortest decimal that identifies a positive finite number; seventeen
digits always do. -/
def shortest (value : Float) : Decimal :=
  let rounding := Rounding.ofFloat value
  (rounding.shortestFrom rounding.magnitude 1 17).dropZeros

/-- Positional between `0.00001` and `10 ^ 16`, with an exponent otherwise; a
positional number has at least one digit after the point. -/
def text (decimal : Decimal) : String :=
  let digits := Nat.toDigits 10 decimal.digits
  let point : Int := digits.length + decimal.exponent
  let zeros (count : Nat) := List.replicate count '0'
  String.ofList <|
    if 0 ≤ decimal.exponent ∧ point ≤ 16 then
      digits ++ zeros decimal.exponent.natAbs ++ ['.', '0']
    else if 0 < point ∧ point ≤ 16 then
      digits.take point.natAbs ++ '.' :: digits.drop point.natAbs
    else if -5 < point ∧ point ≤ 0 then
      '0' :: '.' :: (zeros point.natAbs ++ digits)
    else
      let exponent := (toString (point - 1)).toList
      let mantissa :=
        if digits.length = 1 then digits
        else digits.take 1 ++ '.' :: digits.drop 1
      mantissa ++ 'e' :: exponent

end Decimal

/-- Text of a finite number. -/
def floatText (value : Float) : String :=
  let negative := value.toBits.toNat / Nat.pow 2 63 = 1
  let magnitude := if value == 0.0 then "0.0" else (Decimal.shortest value.abs).text
  if negative then "-" ++ magnitude else magnitude

end BehaviorTree
