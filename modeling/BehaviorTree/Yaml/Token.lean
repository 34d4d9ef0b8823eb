import BehaviorTree.Yaml.Scalar

/-!
# Tokens

The marks and scalars of a document in their order.  The indentation of lines
shows as tokens that open and close block collections, and a key is announced by
a token in front of it.

That something is a key shows only at the colon behind it.  The scanner therefore
remembers where the last possible key starts; a key has to stand on one line, and
the colon not more than 1024 characters behind its start.

Anchors, tags, block scalars and directives are not read.
-/

namespace BehaviorTree

namespace Yaml

inductive Token where
  | documentStart
  | documentEnd
  | blockSequenceStart
  | blockMappingStart
  | blockEnd
  | flowSequenceStart
  | flowSequenceEnd
  | flowMappingStart
  | flowMappingEnd
  | blockEntry
  | flowEntry
  | key
  | value
  | scalar (text : String) (plain : Bool)
deriving DecidableEq, Inhabited

/-- The start of something that may turn out to be a key. -/
structure KeyStart where
  /-- The number of tokens in front of it. -/
  position : Nat
  index : Nat
  line : Nat
  column : Nat
  /-- A line of a block mapping has to start with a key. -/
  required : Bool

/-- It is too late for a colon. -/
def KeyStart.isPast (start : KeyStart) (cursor : Cursor) : Bool :=
  start.line < cursor.line || start.index + 1024 < cursor.index

structure Scanner where
  cursor : Cursor
  tokens : Array Token := #[]
  /-- The columns of the open block collections, the innermost first. -/
  columns : List Nat := []
  /-- The last possible key within the innermost brackets. -/
  keyStart : Option KeyStart := none
  /-- The possible keys around each of the open brackets, the innermost first. -/
  outerKeys : List (Option KeyStart) := []
  /-- A key may start here. -/
  keyAllowed : Bool := true

namespace Scanner

def inBrackets (scanner : Scanner) : Bool := !scanner.outerKeys.isEmpty

/-- Passes a token that takes a number of characters. -/
def take (scanner : Scanner) (token : Token) (count : Nat) : Scanner :=
  { scanner with
    tokens := scanner.tokens.push token
    cursor := scanner.cursor.skip count }

/-- Passes the characters in front of the next token. -/
def passSpacing (scanner : Scanner) : Scanner :=
  let passed := spacing scanner.inBrackets (scanner.inBrackets || !scanner.keyAllowed) false
    (scanner.cursor.column = 0) scanner.cursor.rest
  { scanner with
    cursor := scanner.cursor.skip passed.length
    keyAllowed :=
      scanner.keyAllowed || (!scanner.inBrackets && passed.any isBreak) }

/-- Gives up a possible key, which fails for a required one. -/
def giveUp : Option KeyStart → Option (Option KeyStart)
  | some start => if start.required then none else some none
  | none => some none

/-- Gives up the possible keys behind which it is too late for a colon. -/
def giveUpPast (scanner : Scanner) : Option Scanner := do
  let check (start : Option KeyStart) : Option (Option KeyStart) :=
    if start.any (·.isPast scanner.cursor) then giveUp start else some start
  let keyStart ← check scanner.keyStart
  let outerKeys ← scanner.outerKeys.mapM check
  return { scanner with keyStart, outerKeys }

/-- Gives up the last possible key. -/
def giveUpKey (scanner : Scanner) : Option Scanner :=
  (giveUp scanner.keyStart).map fun keyStart => { scanner with keyStart }

/-- Remembers that a key may start here. -/
def markKey (scanner : Scanner) : Option Scanner :=
  if scanner.keyAllowed then
    scanner.giveUpKey.map fun scanner =>
      { scanner with
        keyStart := some {
          position := scanner.tokens.size
          index := scanner.cursor.index
          line := scanner.cursor.line
          column := scanner.cursor.column
          required :=
            !scanner.inBrackets && scanner.columns.head? = some scanner.cursor.column } }
  else some scanner

/-- Opens a block collection in front of the token at a position, unless one is
open at its column or further right. -/
def openBlock (scanner : Scanner) (token : Token) (column position : Nat) : Scanner :=
  if scanner.inBrackets || scanner.columns.head?.any (column ≤ ·) then scanner
  else
    { scanner with
      columns := column :: scanner.columns
      tokens := scanner.tokens.insertIdxIfInBounds position token }

/-- Opens a block collection here. -/
def openBlockHere (scanner : Scanner) (token : Token) : Scanner :=
  scanner.openBlock token scanner.cursor.column scanner.tokens.size

/-- Closes the innermost block collections as long as their column is left. -/
def closeBlocks (scanner : Scanner) (isLeft : Nat → Bool) : Scanner :=
  if scanner.inBrackets then scanner
  else
    let closed := scanner.columns.takeWhile isLeft
    { scanner with
      columns := scanner.columns.drop closed.length
      tokens := scanner.tokens ++ Array.replicate closed.length .blockEnd }

def documentMark (scanner : Scanner) (token : Token) : Option Scanner := do
  let scanner ← (scanner.closeBlocks fun _ => true).giveUpKey
  return { scanner with keyAllowed := false }.take token 3

/-- An opening bracket may itself start a key. -/
def openBracket (scanner : Scanner) (token : Token) : Option Scanner := do
  let scanner ← scanner.markKey
  let inner := { scanner with
    outerKeys := scanner.keyStart :: scanner.outerKeys
    keyStart := none
    keyAllowed := true }
  return inner.take token 1

/-- Behind a closing bracket only a possible key around it is left. -/
def closeBracket (scanner : Scanner) (token : Token) : Option Scanner := do
  let scanner ← scanner.giveUpKey
  let outer := { scanner with
    keyStart := scanner.outerKeys.head?.join
    outerKeys := scanner.outerKeys.tail
    keyAllowed := false }
  return outer.take token 1

def comma (scanner : Scanner) : Option Scanner := do
  let scanner ← scanner.giveUpKey
  return { scanner with keyAllowed := true }.take .flowEntry 1

/-- A mark that starts a part of a block collection has to stand where a key may
start. -/
def openMarked (scanner : Scanner) (token : Token) : Option Scanner :=
  if scanner.inBrackets then some scanner
  else if scanner.keyAllowed then some (scanner.openBlockHere token)
  else none

def dash (scanner : Scanner) : Option Scanner := do
  let scanner ← (← scanner.openMarked .blockSequenceStart).giveUpKey
  return { scanner with keyAllowed := true }.take .blockEntry 1

def questionMark (scanner : Scanner) : Option Scanner := do
  let scanner ← (← scanner.openMarked .blockMappingStart).giveUpKey
  return { scanner with keyAllowed := !scanner.inBrackets }.take .key 1

/-- A colon turns a possible key into a key. -/
def colon (scanner : Scanner) : Option Scanner :=
  match scanner.keyStart with
  | some start =>
    let announced := { scanner with
      tokens := scanner.tokens.insertIdxIfInBounds start.position .key
      keyStart := none
      keyAllowed := false }
    some ((announced.openBlock .blockMappingStart start.column start.position).take .value 1)
  | none => do
    let scanner ← scanner.openMarked .blockMappingStart
    return { scanner with keyAllowed := !scanner.inBrackets }.take .value 1

def quotedScalar (scanner : Scanner) (quote : Char) : Option Scanner := do
  let scanner ← scanner.markKey
  let (text, next) ←
    readQuoted quote scanner.cursor.rest.length scanner.cursor.advance
  return { scanner with
    cursor := next
    tokens := scanner.tokens.push (.scalar (String.ofList text) false)
    keyAllowed := false }

/-- A scalar without quotes that ends with a line lets a key start behind it. -/
def plainScalar (scanner : Scanner) : Option Scanner := do
  let scanner ← scanner.markKey
  let floor := (scanner.columns.head?.map (· + 1)).getD 0
  let read ← readPlain floor scanner.inBrackets
    (scanner.cursor.rest.length + 1) [] scanner.cursor
  return { scanner with
    cursor := read.next
    tokens := scanner.tokens.push (.scalar (String.ofList read.text) true)
    keyAllowed := read.brokenOff }

/-- Passes the token that starts with a character. -/
def passToken (scanner : Scanner) (char : Char) (rest : List Char) : Option Scanner :=
  let isMark := scanner.inBrackets || startsGap rest
  if scanner.cursor.atDocumentMark then
    scanner.documentMark (if char = '-' then .documentStart else .documentEnd)
  else if char = '[' then scanner.openBracket .flowSequenceStart
  else if char = '\x7b' then scanner.openBracket .flowMappingStart
  else if char = ']' then scanner.closeBracket .flowSequenceEnd
  else if char = '\x7d' then scanner.closeBracket .flowMappingEnd
  else if char = ',' then scanner.comma
  else if char = '-' && startsGap rest then scanner.dash
  else if char = '?' && isMark then scanner.questionMark
  else if char = ':' && isMark then scanner.colon
  else if char = '\'' || char = '"' then scanner.quotedScalar char
  else if startsPlain scanner.inBrackets (char :: rest) then scanner.plainScalar
  else none

/-- The tokens up to the end of the text.  Every token takes a character. -/
def finish : Nat → Scanner → Option (List Token)
  | 0, _ => none
  | fuel + 1, scanner => do
    let scanner ← scanner.passSpacing.giveUpPast
    let column := scanner.cursor.column
    let scanner := scanner.closeBlocks (column < ·)
    match scanner.cursor.rest with
    | char :: rest => finish fuel (← scanner.passToken char rest)
    | [] =>
      let scanner ← (scanner.closeBlocks fun _ => true).giveUpKey
      return scanner.tokens.toList

end Scanner

/-- The tokens of a text that holds only allowed characters. -/
def Token.scan (text : String) : Option (List Token) :=
  if text.toList.all isAllowed then
    let chars := unifyBreaks text.toList
    Scanner.finish (chars.length + 1) { cursor := { rest := chars } }
  else none

end Yaml

end BehaviorTree
