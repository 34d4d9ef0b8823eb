import BehaviorTree.Yaml.Cursor

/-!
# Scalars

A scalar may go on over several lines.  A break between two words is read as a
space, and several breaks as one break less.
-/

namespace BehaviorTree

namespace Yaml

/-- What the gap between two words of a scalar is read as. -/
def foldGap (gap : List Char) : List Char :=
  match gap.dropWhile isBlank with
  | [] => gap
  | first :: rest =>
    let further := rest.filter isBreak
    if first ≠ '\n' then first :: further
    else if further.isEmpty then [' ']
    else further

def brackets : List Char := [',', '[', ']', '\x7b', '\x7d']

/-- Characters that cannot start a scalar without quotes. -/
def indicators : List Char :=
  brackets ++ ['#', '&', '*', '!', '|', '>', '\'', '"', '%', '@', '\x60']

/-- A scalar without quotes starts here.  A dash, a question mark and a colon
start one if no gap follows, the last two only outside of brackets. -/
def startsPlain (inBrackets : Bool) : List Char → Bool
  | [] => false
  | '-' :: rest => !startsGap rest
  | '?' :: rest => !inBrackets && !startsGap rest
  | ':' :: rest => !inBrackets && !startsGap rest
  | char :: _ => !isGap char && char ∉ indicators

/-- The characters of one word.  It ends at a gap, at a colon with a gap behind
it, and within brackets also at a bracket or a comma.  Within brackets a colon
must not touch one of these or a question mark. -/
def readWord (inBrackets : Bool) : List Char → Option (List Char)
  | [] => some []
  | char :: rest =>
    if char = ':' && startsGap rest then some []
    else if char = ':' && inBrackets && rest.head?.any (· ∈ '?' :: brackets) then none
    else if isGap char || (inBrackets && char ∈ brackets) then some []
    else (readWord inBrackets rest).map (char :: ·)

/-- A tab indents a further line by less than `floor`.  The column is that of the
next character, once a break has been passed. -/
def tabIndents (floor : Nat) : Option Nat → List Char → Bool
  | _, [] => false
  | column, char :: rest =>
    if isBreak char then tabIndents floor (some 0) rest
    else
      (char = '\t' && column.any (· < floor)) ||
        tabIndents floor (column.map (· + 1)) rest

/-- The text of a scalar without quotes, and what follows it. -/
structure PlainText where
  text : List Char
  /-- A break stands between the text and what follows. -/
  brokenOff : Bool
  next : Cursor

/-- Reads the words of a scalar from behind a gap.  Outside of brackets further
lines have to be indented by `floor`. -/
def readPlain (floor : Nat) (inBrackets : Bool) :
    Nat → List Char → Cursor → Option PlainText
  | 0, _, _ => none
  | fuel + 1, gap, cursor =>
    let brokenOff := gap.any isBreak
    let stop : PlainText := { text := [], brokenOff, next := cursor }
    if cursor.atDocumentMark || cursor.rest.head? = some '#' ||
        (!inBrackets && brokenOff && cursor.column < floor) then
      some stop
    else
      match readWord inBrackets cursor.rest with
      | none => none
      | some [] => some stop
      | some word =>
        let behind := cursor.skip word.length
        let following := behind.rest.takeWhile isGap
        if tabIndents floor none following then none
        else
          (readPlain floor inBrackets fuel following (behind.skip following.length)).map
            fun more => { more with text := foldGap gap ++ word ++ more.text }

/-- The character for which a letter stands behind a backslash. -/
def escapes : List (Char × Char) :=
  [('0', '\x00'), ('a', '\x07'), ('b', '\x08'), ('t', '\t'), ('\t', '\t'), ('n', '\n'),
   ('v', '\x0b'), ('f', '\x0c'), ('r', '\r'), ('e', '\x1b'), (' ', ' '), ('"', '"'),
   ('/', '/'), ('\\', '\\'), ('N', '\u0085'), ('_', '\u00a0'), ('L', '\u2028'),
   ('P', '\u2029')]

/-- How many hexadecimal digits follow a letter behind a backslash. -/
def codeLengths : List (Char × Nat) := [('x', 2), ('u', 4), ('U', 8)]

def hexValue? (digit : Char) : Option Nat :=
  if digit.isDigit then some (digit.toNat - 48)
  else if 'a' ≤ digit.toLower && digit.toLower ≤ 'f' then some (digit.toLower.toNat - 87)
  else none

/-- The character with the code that the digits write. -/
def charOfCode (digits : List Char) : Option Char := do
  let values ← digits.mapM hexValue?
  let code := values.foldl (fun code value => code * 16 + value) 0
  if code.isValidChar then some (Char.ofNat code) else none

/-- What stands behind a backslash: the characters that are read, and how many
are written. -/
def readEscape : List Char → Option (List Char × Nat)
  | [] => none
  | char :: rest =>
    if isBreak char then
      let gap := rest.takeWhile isGap
      some (gap.filter isBreak, 1 + gap.length)
    else
      match escapes.lookup char, codeLengths.lookup char with
      | some read, _ => some ([read], 1)
      | none, some length =>
        if rest.length < length then none
        else (charOfCode (rest.take length)).map fun read => ([read], 1 + length)
      | none, none => none

/-- The text up to the closing quote, and the cursor behind that.  Within single
quotes, two quotes stand for one; within double quotes, a backslash escapes. -/
def readQuoted (quote : Char) : Nat → Cursor → Option (List Char × Cursor)
  | 0, _ => none
  | fuel + 1, cursor =>
    let goOn (text : List Char) (count : Nat) : Option (List Char × Cursor) :=
      (readQuoted quote fuel (cursor.skip count)).map fun (more, next) => (text ++ more, next)
    if cursor.atDocumentMark then none
    else
      match cursor.rest with
      | [] => none
      | char :: rest =>
        if char = quote then
          if quote = '\'' && rest.head? = some quote then goOn [quote] 2
          else some ([], cursor.advance)
        else if char = '\\' && quote = '"' then
          match readEscape rest with
          | some (text, count) => goOn text (1 + count)
          | none => none
        else if isGap char then
          let gap := (char :: rest).takeWhile isGap
          goOn (foldGap gap) gap.length
        else goOn [char] 1

end Yaml

end BehaviorTree
