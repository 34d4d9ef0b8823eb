import BehaviorTree.Json
import BehaviorTree.Yaml.Number

/-!
# Reading values of unknown type

In a place whose type depends on what stands beside it, a scalar without quotes
is first resolved to the most particular thing that its text can stand for.
-/

namespace BehaviorTree

namespace Yaml

/-- A floating-point number, or else the text itself. -/
def resolveFloat (text : String) : Json :=
  match float? text with
  | some value => .float value
  | none => .str text

/-- A whole number of 64 bits.  No place takes one of more than 64 and up to 128
bits; one that is larger still is read as a floating-point number or a text. -/
def resolveWhole (text : String) (negative : Bool) (size : Nat) : Option Json :=
  if negative then
    if size ≤ Nat.pow 2 63 then some (.int (-size))
    else if size ≤ Nat.pow 2 127 then none
    else some (resolveFloat text)
  else
    if size < UInt64.size then some (.int size)
    else if size < Nat.pow 2 128 then none
    else some (resolveFloat text)

/-- The value of a scalar without quotes. -/
def resolvePlain (text : String) : Option Json :=
  if text ∈ nullWords then some .null
  else
    match bool? text with
    | some value => some (.bool value)
    | none =>
      match whole? text with
      | some (negative, size) => resolveWhole text negative size
      | none =>
        if isZeroPadded (splitSign text.toList).2 then some (.str text)
        else some (resolveFloat text)

/-- The name that a key stands for.  A whole number without a minus sign stands
for the name at that place.  Other keys that are not texts name nothing: no field
is named by a null word, a truth value or a number, or has an empty name. -/
def keyName (names : List String) : Yaml → Json → String
  | _, .str text => text
  | scalar text _, .int place =>
    if text.startsWith "-" then text else names.getD place.toNat text
  | scalar text _, _ => text
  | _, _ => ""

mutual

/-- The document value with every plain scalar resolved.  The keys of mappings
become names, of which those in the list may be given by their place. -/
def resolve (names : List String) : Yaml → Option Json
  | scalar text plain => if plain then resolvePlain text else some (.str text)
  | sequence items => (resolveEach names items).map .arr
  | mapping entries => (resolveEntries names entries).map .obj

def resolveEach (names : List String) : List Yaml → Option (List Json)
  | [] => some []
  | item :: rest =>
    match item.resolve names, resolveEach names rest with
    | some item, some rest => some (item :: rest)
    | _, _ => none

def resolveEntries (names : List String) :
    List (Yaml × Yaml) → Option (List (String × Json))
  | [] => some []
  | (key, value) :: rest =>
    match key.resolve names, value.resolve names, resolveEntries names rest with
    | some resolved, some value, some rest =>
      some ((keyName names key resolved, value) :: rest)
    | _, _, _ => none

end

/-- A key that can tell which field it belongs to: a text, or the place of the
field. -/
def isFieldKey : Yaml → Bool
  | scalar text plain =>
    match if plain then resolvePlain text else some (.str text) with
    | some (.str _) => true
    | some (.int _) => !text.startsWith "-"
    | _ => false
  | _ => false

/-- The fields of a record whose keys are resolved, with the values still to be
resolved.  A record without fields takes any keys. -/
def resolveFields (names : List String) (entries : List (Yaml × Yaml)) :
    Option (List (String × Yaml)) := do
  let fields ← entries.mapM fun (key, value) =>
    (key.resolve []).map fun resolved => (keyName names key resolved, value)
  let known := (fields.map (·.1)).filter (· ∈ names)
  if (names.isEmpty || entries.all (isFieldKey ·.1)) && known.Nodup then some fields
  else none

end Yaml

end BehaviorTree
