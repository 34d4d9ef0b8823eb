/-!
# Places in a text

A cursor stands in front of the rest of a text and knows its line and column.
-/

namespace BehaviorTree

namespace Yaml

def isBlank (char : Char) : Bool := char = ' ' || char = '\t'

/-- The two separators end a line like a line feed, but stay what they are. -/
def isBreak (char : Char) : Bool :=
  char = '\n' || char = '\u2028' || char = '\u2029'

def isGap (char : Char) : Bool := isBlank char || isBreak char

/-- A gap follows, or the end of the text. -/
def startsGap : List Char → Bool
  | [] => true
  | char :: _ => isGap char

/-- The mark that may start a line without belonging to its content. -/
def byteOrderMark : Char := '\ufeff'

/-- Characters that a document may hold: all but most control characters, and all
but the last two of the sixteen-bit ones. -/
def isAllowed (char : Char) : Bool :=
  let code := char.toNat
  char = '\t' || char = '\n' || char = '\r' || char = '\u0085' ||
    (0x20 ≤ code && code ≤ 0x7e) || (0xa0 ≤ code && code ≤ 0xfffd) || 0x10000 ≤ code

/-- The text with a line feed for each of the other ways to end a line. -/
def unifyBreaks : List Char → List Char
  | [] => []
  | '\r' :: '\n' :: rest => '\n' :: unifyBreaks rest
  | '\r' :: rest => '\n' :: unifyBreaks rest
  | '\u0085' :: rest => '\n' :: unifyBreaks rest
  | char :: rest => char :: unifyBreaks rest

structure Cursor where
  rest : List Char
  index : Nat := 0
  line : Nat := 0
  column : Nat := 0

namespace Cursor

/-- Moves behind the next character. -/
def advance : Cursor → Cursor
  | ⟨[], index, line, column⟩ => ⟨[], index, line, column⟩
  | ⟨char :: rest, index, line, column⟩ =>
    if isBreak char then ⟨rest, index + 1, line + 1, 0⟩
    else ⟨rest, index + 1, line, column + 1⟩

/-- Moves behind a number of characters. -/
def skip : Nat → Cursor → Cursor
  | 0, cursor => cursor
  | count + 1, cursor => skip count cursor.advance

/-- Three dashes or three points on their own start or end a document. -/
def atDocumentMark (cursor : Cursor) : Bool :=
  cursor.column = 0 &&
    match cursor.rest with
    | '-' :: '-' :: '-' :: rest => startsGap rest
    | '.' :: '.' :: '.' :: rest => startsGap rest
    | _ => false

end Cursor

/-- The characters between two tokens: blanks, comments and breaks.  Tabs count
only where `tabs` holds; outside of brackets they do not indent a line. -/
def spacing (inBrackets : Bool) :
    (tabs comment lineStart : Bool) → List Char → List Char
  | _, _, _, [] => []
  | tabs, comment, lineStart, char :: rest =>
    if isBreak char then char :: spacing inBrackets inBrackets false true rest
    else if comment then char :: spacing inBrackets tabs true false rest
    else if char = '#' then char :: spacing inBrackets tabs true false rest
    else if char = ' ' || (char = '\t' && tabs) || (char = byteOrderMark && lineStart) then
      char :: spacing inBrackets tabs false false rest
    else []

end Yaml

end BehaviorTree
