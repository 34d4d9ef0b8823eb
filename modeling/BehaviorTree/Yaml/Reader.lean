import BehaviorTree.Yaml
import BehaviorTree.Yaml.Token

/-!
# Reading documents

The readers take the tokens of a value from the front of a list and return the
value and the other tokens.
-/

namespace BehaviorTree

namespace Yaml

/-- A value is left out if one of the given tokens is next. -/
def isLeftOut (ends : List Token) : List Token → Bool
  | [] => false
  | token :: _ => token ∈ ends

/-- Where a value stands.  Block collections are only read in a block, and a
sequence with the indentation of its key only behind a key. -/
inductive Place where
  | inBrackets
  | inBlock
  | behindKey
deriving DecidableEq

mutual

/-- A value. -/
def readNode (place : Place) : Nat → List Token → Option (Yaml × List Token)
  | 0, _ => none
  | _, [] => none
  | fuel + 1, token :: rest =>
    match token with
    | .scalar text plain => some (scalar text plain, rest)
    | .flowSequenceStart =>
      (readItems fuel rest).map fun (items, rest) => (sequence items, rest)
    | .flowMappingStart =>
      (readEntries fuel rest).map fun (entries, rest) => (mapping entries, rest)
    | .blockSequenceStart =>
      if place = .inBrackets then none
      else (readDashed true fuel rest).map fun (items, rest) => (sequence items, rest)
    | .blockMappingStart =>
      if place = .inBrackets then none
      else (readKeyed fuel rest).map fun (entries, rest) => (mapping entries, rest)
    | .blockEntry =>
      if place = .behindKey then
        (readDashed false fuel (token :: rest)).map fun (items, rest) =>
          (sequence items, rest)
      else none
    | _ => none

/-- A value, or none in front of one of the given tokens. -/
def readOptional (place : Place) (ends : List Token) :
    Nat → List Token → Option (Yaml × List Token)
  | 0, _ => none
  | fuel + 1, tokens =>
    if isLeftOut ends tokens then some (absent, tokens) else readNode place fuel tokens

/-- The value behind a colon, if there is a colon. -/
def readValue (place : Place) (ends : List Token) :
    Nat → List Token → Option (Yaml × List Token)
  | 0, _ => none
  | fuel + 1, .value :: rest => readOptional place ends fuel rest
  | _, tokens => some (absent, tokens)

/-- The items of a block sequence.  One with an indentation of its own is closed
by a token. -/
def readDashed (indented : Bool) : Nat → List Token → Option (List Yaml × List Token)
  | 0, _ => none
  | fuel + 1, .blockEntry :: rest => do
    let ends := if indented then [.blockEntry, .blockEnd]
      else [.blockEntry, .key, .value, .blockEnd]
    let (item, rest) ← readOptional .inBlock ends fuel rest
    let (items, rest) ← readDashed indented fuel rest
    return (item :: items, rest)
  | _, rest =>
    if indented then
      match rest with
      | .blockEnd :: rest => some ([], rest)
      | _ => none
    else some ([], rest)

/-- The entries of a block mapping. -/
def readKeyed : Nat → List Token → Option (List (Yaml × Yaml) × List Token)
  | 0, _ => none
  | fuel + 1, .key :: rest => do
    let ends := [.key, .value, .blockEnd]
    let (key, rest) ← readOptional .behindKey ends fuel rest
    let (value, rest) ← readValue .behindKey ends fuel rest
    let (entries, rest) ← readKeyed fuel rest
    return ((key, value) :: entries, rest)
  | _, .blockEnd :: rest => some ([], rest)
  | _, _ => none

/-- The items of a sequence in brackets. -/
def readItems : Nat → List Token → Option (List Yaml × List Token)
  | 0, _ => none
  | _, .flowSequenceEnd :: rest => some ([], rest)
  | fuel + 1, tokens => do
    let (item, rest) ← readItem fuel tokens
    match rest with
    | .flowEntry :: rest =>
      let (items, rest) ← readItems fuel rest
      return (item :: items, rest)
    | .flowSequenceEnd :: rest => return ([item], rest)
    | _ => none

/-- An item in brackets.  One with a key is a mapping with one entry; if its key is
left out, so is the token behind it. -/
def readItem : Nat → List Token → Option (Yaml × List Token)
  | 0, _ => none
  | fuel + 1, .key :: rest => do
    let ends := [.flowEntry, .flowSequenceEnd]
    let (key, rest) ←
      if isLeftOut (.value :: ends) rest then pure (absent, rest.tail)
      else readNode .inBrackets fuel rest
    let (value, rest) ← readValue .inBrackets ends fuel rest
    return (mapping [(key, value)], rest)
  | fuel + 1, tokens => readNode .inBrackets fuel tokens

/-- The entries of a mapping in brackets. -/
def readEntries : Nat → List Token → Option (List (Yaml × Yaml) × List Token)
  | 0, _ => none
  | _, .flowMappingEnd :: rest => some ([], rest)
  | fuel + 1, tokens => do
    let (entry, rest) ← readEntry fuel tokens
    match rest with
    | .flowEntry :: rest =>
      let (entries, rest) ← readEntries fuel rest
      return (entry :: entries, rest)
    | .flowMappingEnd :: rest => return ([entry], rest)
    | _ => none

/-- A key in brackets and its value, each of which may be left out. -/
def readEntry : Nat → List Token → Option ((Yaml × Yaml) × List Token)
  | 0, _ => none
  | fuel + 1, .key :: rest => do
    let ends := [.flowEntry, .flowMappingEnd]
    let (key, rest) ← readOptional .inBrackets (.value :: ends) fuel rest
    let (value, rest) ← readValue .inBrackets ends fuel rest
    return ((key, value), rest)
  | fuel + 1, tokens => do
    let (key, rest) ← readNode .inBrackets fuel tokens
    return ((key, absent), rest)

end

/-- The only document of a list of tokens.  It may stand between marks, and a text
without content is an absent document. -/
def ofTokens (tokens : List Token) : Option Yaml := do
  let fuel := 3 * tokens.length + 3
  let (value, rest) ← match tokens with
    | [] => some (absent, [])
    | .documentStart :: rest =>
      if rest.isEmpty then some (absent, [])
      else readOptional .inBlock [.documentStart, .documentEnd] fuel rest
    | tokens => readNode .inBlock fuel tokens
  if rest.all (· = .documentEnd) then some value else none

/-- The document that a text holds. -/
def parse (text : String) : Option Yaml := (Token.scan text).bind ofTokens

end Yaml

end BehaviorTree
