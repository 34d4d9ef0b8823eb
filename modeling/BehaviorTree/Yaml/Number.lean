import BehaviorTree.Decimal
import BehaviorTree.Yaml

/-!
# Words and numbers

What the text of a scalar without quotes can stand for: nothing, a truth value, a
whole number in one of four bases, or a floating-point number.
-/

namespace BehaviorTree

namespace Yaml

def nullWords : List String := ["", "~", "null", "Null", "NULL"]

def trueWords : List String := ["true", "True", "TRUE"]

def falseWords : List String := ["false", "False", "FALSE"]

def bool? (text : String) : Option Bool :=
  if text ∈ trueWords then some true
  else if text ∈ falseWords then some false
  else none

/-- A number with an optional sign: whether it is negative, and the rest. -/
def splitSign : List Char → Bool × List Char
  | '-' :: rest => (true, rest)
  | '+' :: rest => (false, rest)
  | chars => (false, chars)

/-- The value of a digit in bases up to sixteen. -/
def digitValue (digit : Char) : Nat :=
  if digit.isDigit then digit.toNat - 48 else digit.toLower.toNat - 87

/-- The number that one or more digits of a base write. -/
def digitsOfBase (base : Nat) (digits : List Char) : Option Nat :=
  let inBase (digit : Char) : Bool :=
    (digit.isDigit || ('a' ≤ digit.toLower && digit.toLower ≤ 'f')) &&
      digitValue digit < base
  if !digits.isEmpty && digits.all inBase then
    some (digits.foldl (fun value digit => value * base + digitValue digit) 0)
  else none

/-- Several decimal digits of which the first is a zero.  They are text. -/
def isZeroPadded (digits : List Char) : Bool :=
  digits.length > 1 && digits.head? = some '0' && digits.all Char.isDigit

/-- A whole number without its sign: hexadecimal, octal or binary after a mark,
and decimal otherwise. -/
def magnitude : List Char → Option Nat
  | '0' :: 'x' :: digits => digitsOfBase 16 digits
  | '0' :: 'o' :: digits => digitsOfBase 8 digits
  | '0' :: 'b' :: digits => digitsOfBase 2 digits
  | digits => if isZeroPadded digits then none else digitsOfBase 10 digits

/-- A whole number: whether it has a minus sign, and its size. -/
def whole? (text : String) : Option (Bool × Nat) :=
  let (negative, chars) := splitSign text.toList
  (magnitude chars).map (negative, ·)

/-- A decimal without its sign: digits on at least one side of the point, and
perhaps an exponent. -/
def decimal? (chars : List Char) : Option Decimal := do
  let whole := chars.takeWhile Char.isDigit
  let rest := chars.dropWhile Char.isDigit
  let (fraction, rest) := match rest with
    | '.' :: rest => (rest.takeWhile Char.isDigit, rest.dropWhile Char.isDigit)
    | rest => ([], rest)
  let digits ← digitsOfBase 10 (whole ++ fraction)
  match rest with
  | [] => return ⟨digits, -(fraction.length : Int)⟩
  | mark :: rest =>
    if mark ≠ 'e' ∧ mark ≠ 'E' then none
    else
      let (negative, rest) := splitSign rest
      let power ← digitsOfBase 10 rest
      let exponent : Int := if negative then -power else power
      return ⟨digits, exponent - fraction.length⟩

/-- The floating-point number that a text writes.  A decimal beyond the finite
numbers is none. -/
def float? (text : String) : Option Float :=
  if text ∈ [".nan", ".NaN", ".NAN"] then some (0.0 / 0.0)
  else
    let (negative, chars) := splitSign text.toList
    let size :=
      if String.ofList chars ∈ [".inf", ".Inf", ".INF"] then some (1.0 / 0.0)
      else
        match (decimal? chars).map Decimal.nearest with
        | some size => if size.isFinite then some size else none
        | none => none
    size.map fun size => if negative then -size else size

end Yaml

end BehaviorTree
