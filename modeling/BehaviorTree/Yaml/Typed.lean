import BehaviorTree.Yaml.Number

/-!
# Reading typed values

Readers for places whose type is known.  A text may be written in any way; a
number or a truth value has no quotes.
-/

namespace BehaviorTree

namespace Yaml

/-- The text of a scalar, whatever else it could stand for. -/
def asText : Yaml → Option String
  | scalar text _ => some text
  | _ => none

def asBool : Yaml → Option Bool
  | scalar text true => bool? text
  | _ => none

/-- A whole number without a minus sign up to, but without, the bound. -/
def asBelow (bound : Nat) : Yaml → Option Nat
  | scalar text true =>
    match whole? text with
    | some (false, size) => if size < bound then some size else none
    | _ => none
  | _ => none

def asUInt64 (value : Yaml) : Option UInt64 :=
  (value.asBelow UInt64.size).map Nat.toUInt64

def asUInt32 (value : Yaml) : Option UInt32 :=
  (value.asBelow UInt32.size).map Nat.toUInt32

def asFloat : Yaml → Option Float
  | scalar text true => float? text
  | _ => none

/-- A null word stands for no value. -/
def asOption {α : Type} (decode : Yaml → Option α) : Yaml → Option (Option α)
  | scalar text true =>
    if text ∈ nullWords then some none else (decode (scalar text true)).map some
  | value => (decode value).map some

/-- The items of a sequence; a value that is left out has none. -/
def asSequence {α : Type} (decode : Yaml → Option α) (value : Yaml) :
    Option (List α) :=
  match value with
  | sequence items => items.mapM decode
  | value => if value.isAbsent then some [] else none

/-- The given fields of a record, which is written as a mapping or left out.  Its
keys are texts; those that name no field do not matter. -/
def asRecord (names : List String) (value : Yaml) :
    Option (List (String × Yaml)) :=
  match value with
  | mapping entries => do
    let keyed ← entries.mapM fun (key, value) => key.asText.map (·, value)
    let fields := keyed.filter (·.1 ∈ names)
    if (fields.map (·.1)).Nodup then some fields else none
  | value => if value.isAbsent then some [] else none

/-- A field that may be left out. -/
def fieldOr {α : Type} (fields : List (String × Yaml)) (name : String)
    (fallback : α) (decode : Yaml → Option α) : Option α :=
  match fields.lookup name with
  | some value => decode value
  | none => some fallback

end Yaml

end BehaviorTree
