import BehaviorTree.Decimal
import BehaviorTree.Json

/-!
# Text of documents

The compact form has no blanks; the indented form puts every item on a line of
its own, two blanks deeper than what holds it.
-/

namespace BehaviorTree

namespace Json

/-- The two lower-case hexadecimal digits of a small number. -/
def hexPair (value : Nat) : String :=
  String.ofList [Nat.digitChar (value / 16 % 16), Nat.digitChar (value % 16)]

/-- A character as it is written inside quotes. -/
def escape (char : Char) : String :=
  if char = '"' then "\\\""
  else if char = '\\' then "\\\\"
  else if char = '\n' then "\\n"
  else if char = '\r' then "\\r"
  else if char = '\t' then "\\t"
  else if char = '\x08' then "\\b"
  else if char = '\x0c' then "\\f"
  else if char.toNat < 0x20 then "\\u00" ++ hexPair char.toNat
  else char.toString

def quote (text : String) : String :=
  text.foldl (fun quoted char => quoted ++ escape char) "\"" ++ "\""

/-- Text of a value that holds no other values. -/
def scalarText : Json → String
  | bool true => "true"
  | bool false => "false"
  | int value => toString value
  | float value => if value.isFinite then floatText value else "null"
  | str value => quote value
  | _ => "null"

/-- How the items of an array or object are set apart. -/
structure Layout where
  /-- Break lines and indent. -/
  indented : Bool

namespace Layout

def newline (layout : Layout) (depth : Nat) : String :=
  if layout.indented then "\n" ++ String.ofList (List.replicate (2 * depth) ' ')
  else ""

def colon (layout : Layout) : String := if layout.indented then ": " else ":"

end Layout

mutual

/-- Appends the text of a value at some depth. -/
def write (layout : Layout) (depth : Nat) (written : String) : Json → String
  | arr [] => written ++ "[]"
  | arr (item :: rest) =>
    let first :=
      write layout (depth + 1) (written ++ "[" ++ layout.newline (depth + 1)) item
    writeItems layout (depth + 1) first rest ++ layout.newline depth ++ "]"
  | obj [] => written ++ "\x7b\x7d"
  | obj ((key, value) :: rest) =>
    let opened := written ++ "\x7b" ++ layout.newline (depth + 1) ++ quote key
    let first := write layout (depth + 1) (opened ++ layout.colon) value
    writeFields layout (depth + 1) first rest ++ layout.newline depth ++ "\x7d"
  | scalar => written ++ scalar.scalarText

/-- Appends further items of an array. -/
def writeItems (layout : Layout) (depth : Nat) (written : String) :
    List Json → String
  | [] => written
  | item :: rest =>
    let next := write layout depth (written ++ "," ++ layout.newline depth) item
    writeItems layout depth next rest

/-- Appends further fields of an object. -/
def writeFields (layout : Layout) (depth : Nat) (written : String) :
    List (String × Json) → String
  | [] => written
  | (key, value) :: rest =>
    let keyed := written ++ "," ++ layout.newline depth ++ quote key ++ layout.colon
    let next := write layout depth keyed value
    writeFields layout depth next rest

end

/-- One-line text of a document. -/
def compact (value : Json) : String := value.write ⟨false⟩ 0 ""

/-- Indented text of a document. -/
def pretty (value : Json) : String := value.write ⟨true⟩ 0 ""

end Json

end BehaviorTree
