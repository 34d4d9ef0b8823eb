import BehaviorTree.Decimal
import BehaviorTree.Json

/-!
# Reading documents

A recursive-descent reader over the characters of a text.  Every step consumes a
character, so the length of the text bounds the recursion.
-/

namespace BehaviorTree

namespace Json

def skipBlanks : List Char → List Char
  | char :: rest =>
    if char = ' ' ∨ char = '\n' ∨ char = '\t' ∨ char = '\r' then skipBlanks rest
    else char :: rest
  | [] => []

/-- Drops an expected word. -/
def skipWord : List Char → List Char → Option (List Char)
  | [], chars => some chars
  | expected :: word, char :: rest =>
    if char = expected then skipWord word rest else none
  | _ :: _, [] => none

def hexDigit (char : Char) : Option Nat :=
  if '0' ≤ char ∧ char ≤ '9' then some (char.toNat - 48)
  else if 'a' ≤ char ∧ char ≤ 'f' then some (char.toNat - 87)
  else if 'A' ≤ char ∧ char ≤ 'F' then some (char.toNat - 55)
  else none

/-- Four hexadecimal digits. -/
def readUnit : List Char → Option (Nat × List Char)
  | a :: b :: c :: d :: rest => do
    let a ← hexDigit a
    let b ← hexDigit b
    let c ← hexDigit c
    let d ← hexDigit d
    return (((a * 16 + b) * 16 + c) * 16 + d, rest)
  | _ => none

/-- The character after `\u`: one unit, or a pair of surrogates. -/
def readEscapedUnit (chars : List Char) : Option (Char × List Char) := do
  let (first, rest) ← readUnit chars
  if 0xD800 ≤ first ∧ first < 0xDC00 then
    match rest with
    | '\\' :: 'u' :: rest =>
      let (second, rest) ← readUnit rest
      if 0xDC00 ≤ second ∧ second < 0xE000 then
        return (Char.ofNat ((first - 0xD800) * 0x400 + (second - 0xDC00) + 0x10000), rest)
      else none
    | _ => none
  else if 0xDC00 ≤ first ∧ first < 0xE000 then none
  else return (Char.ofNat first, rest)

/-- The character after a backslash. -/
def readEscape : List Char → Option (Char × List Char)
  | '"' :: rest => some ('"', rest)
  | '\\' :: rest => some ('\\', rest)
  | '/' :: rest => some ('/', rest)
  | 'b' :: rest => some ('\x08', rest)
  | 'f' :: rest => some ('\x0c', rest)
  | 'n' :: rest => some ('\n', rest)
  | 'r' :: rest => some ('\r', rest)
  | 't' :: rest => some ('\t', rest)
  | 'u' :: rest => readEscapedUnit rest
  | _ => none

/-- The characters up to the closing quote, appended to those read before. -/
def readString (fuel : Nat) (read : String) (chars : List Char) : Option (String × List Char) :=
  match fuel, chars with
  | _, '"' :: rest => some (read, rest)
  | fuel + 1, '\\' :: rest =>
    match readEscape rest with
    | some (char, rest) => readString fuel (read.push char) rest
    | none => none
  | fuel + 1, char :: rest =>
    if char.toNat < 0x20 then none else readString fuel (read.push char) rest
  | _, _ => none

/-- Appends a digit to the significand, if it still fits a 64-bit word. -/
def appendDigit (significand : Nat) (digit : Char) : Option Nat :=
  let longer := significand * 10 + (digit.toNat - 48)
  if longer < UInt64.size then some longer else none

/-- The digits before the point.  Those that do not fit the significand count
as zeros. -/
def wholeDigits (significand : Nat) : List Char → Decimal
  | [] => ⟨significand, 0⟩
  | digit :: rest =>
    match appendDigit significand digit with
    | some longer => wholeDigits longer rest
    | none => ⟨significand, rest.length + 1⟩

/-- The digits after the point, up to the first that does not fit. -/
def fractionDigits (decimal : Decimal) : List Char → Decimal
  | [] => decimal
  | digit :: rest =>
    match appendDigit decimal.digits digit with
    | some longer => fractionDigits ⟨longer, decimal.exponent - 1⟩ rest
    | none => decimal

/-- At least one digit. -/
def readDigits (chars : List Char) : Option (List Char × List Char) :=
  let digits := chars.takeWhile Char.isDigit
  if digits.isEmpty then none else some (digits, chars.dropWhile Char.isDigit)

/-- A whole part without superfluous zeros. -/
def readWhole (chars : List Char) : Option (List Char × List Char) := do
  let (digits, rest) ← readDigits chars
  if digits.length > 1 ∧ digits.head? = some '0' then none
  else return (digits, rest)

/-- The digits after a point, none if there is no point. -/
def readFraction : List Char → Option (Option (List Char) × List Char)
  | '.' :: rest => do
    let (digits, rest) ← readDigits rest
    return (some digits, rest)
  | chars => some (none, chars)

/-- An exponent, none if there is no mark of one. -/
def readExponent : List Char → Option (Option Int × List Char)
  | mark :: rest =>
    if mark = 'e' ∨ mark = 'E' then do
      let (negative, rest) := match rest with
        | '-' :: rest => (true, rest)
        | '+' :: rest => (false, rest)
        | rest => (false, rest)
      let (digits, rest) ← readDigits rest
      let magnitude : Int := Nat.ofDigitChars 10 digits 0
      return (some (if negative then -magnitude else magnitude), rest)
    else some (none, mark :: rest)
  | [] => some (none, [])

/-- A whole number that fits a 64-bit word, signed if it is negative; other
numbers are floating-point numbers. -/
def ofWhole (negative : Bool) (digits : List Char) : Option Json :=
  let value := Nat.ofDigitChars 10 digits 0
  if negative ∧ 0 < value ∧ value ≤ Nat.pow 2 63 then some (.int (-value))
  else if !negative ∧ value < UInt64.size then some (.int value)
  else
    (wholeDigits 0 digits).toFloat?.map fun magnitude =>
      .float (if negative then -magnitude else magnitude)

/-- A number with a point or an exponent. -/
def ofDecimal (negative : Bool) (whole fraction : List Char) (exponent : Int) :
    Option Json :=
  let decimal := fractionDigits (wholeDigits 0 whole) fraction
  ({ decimal with exponent := decimal.exponent + exponent } : Decimal).toFloat?.map
    fun magnitude => .float (if negative then -magnitude else magnitude)

def readNumber (chars : List Char) : Option (Json × List Char) := do
  let (negative, rest) := match chars with
    | '-' :: rest => (true, rest)
    | rest => (false, rest)
  let (whole, rest) ← readWhole rest
  let (fraction, rest) ← readFraction rest
  let (exponent, rest) ← readExponent rest
  let value ← match fraction, exponent with
    | none, none => ofWhole negative whole
    | fraction, exponent =>
      ofDecimal negative whole (fraction.getD []) (exponent.getD 0)
  return (value, rest)

mutual

/-- Reads a value in which at most `room` containers contain each other. -/
def readValue : Nat → Nat → List Char → Option (Json × List Char)
  | 0, _, _ => none
  | fuel + 1, room, chars =>
    match skipBlanks chars, room with
    | '"' :: rest, _ => (readString rest.length "" rest).map fun (text, rest) => (.str text, rest)
    | '[' :: rest, room + 1 =>
      match skipBlanks rest with
      | ']' :: rest => some (.arr [], rest)
      | rest => (readItems fuel room rest).map fun (items, rest) => (.arr items, rest)
    | '\x7b' :: rest, room + 1 =>
      match skipBlanks rest with
      | '\x7d' :: rest => some (.obj [], rest)
      | rest => (readFields fuel room [] rest).map fun (fields, rest) => (.obj fields, rest)
    | 'n' :: rest, _ => (skipWord ['u', 'l', 'l'] rest).map (.null, ·)
    | 't' :: rest, _ => (skipWord ['r', 'u', 'e'] rest).map (.bool true, ·)
    | 'f' :: rest, _ => (skipWord ['a', 'l', 's', 'e'] rest).map (.bool false, ·)
    | rest, _ => readNumber rest

/-- The items of an array up to its end. -/
def readItems : Nat → Nat → List Char → Option (List Json × List Char)
  | 0, _, _ => none
  | fuel + 1, room, chars =>
    match readValue fuel room chars with
    | none => none
    | some (item, rest) =>
      match skipBlanks rest with
      | ',' :: rest =>
        match readItems fuel room rest with
        | some (items, rest) => some (item :: items, rest)
        | none => none
      | ']' :: rest => some ([item], rest)
      | _ => none

/-- The fields of an object up to its end, added to those read before. -/
def readFields : Nat → Nat → List (String × Json) → List Char →
    Option (List (String × Json) × List Char)
  | 0, _, _, _ => none
  | fuel + 1, room, fields, chars =>
    match skipBlanks chars with
    | '"' :: rest =>
      match readString rest.length "" rest with
      | none => none
      | some (key, rest) =>
        match skipBlanks rest with
        | ':' :: rest =>
          match readValue fuel room rest with
          | none => none
          | some (value, rest) =>
            let fields := insertField key value fields
            match skipBlanks rest with
            | ',' :: rest => readFields fuel room fields rest
            | '\x7d' :: rest => some (fields, rest)
            | _ => none
        | _ => none
    | _ => none

end

/-- The document that a text holds. -/
def parse (text : String) : Option Json :=
  let chars := text.toList
  match readValue (chars.length + 1) maxDepth chars with
  | some (value, rest) => if (skipBlanks rest).isEmpty then some value else none
  | none => none

end Json

end BehaviorTree
