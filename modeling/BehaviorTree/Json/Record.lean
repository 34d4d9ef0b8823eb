import BehaviorTree.Json

/-!
# Reading records

A record is written as an object and read from an object, where keys that are
not its own do not matter, or from the array of its fields in the order of their
declaration, where trailing fields with a default may be left out.
-/

namespace BehaviorTree

inductive Record where
  | keyed (fields : List (String × Json))
  | positional (names : List String) (items : List Json)

namespace Json

/-- A record with the given fields. -/
def asRecord (names : List String) : Json → Option Record
  | obj fields => some (.keyed fields)
  | arr items =>
    if items.length ≤ names.length then some (.positional names items) else none
  | _ => none

/-- A variant of a type whose tag is one of the fields.  Each tag has a list of
further fields. -/
def asVariant (tagKey : String) (fieldNames : String → Option (List String)) :
    Json → Option (String × Record)
  | obj fields => do
    let tag ← (fields.lookup tagKey).bind asString
    let _ ← fieldNames tag
    return (tag, .keyed fields)
  | arr (str tag :: items) => do
    let names ← fieldNames tag
    if items.length ≤ names.length then return (tag, .positional names items)
    else none
  | _ => none

end Json

namespace Record

variable {α : Type}

def field? : Record → String → Option Json
  | keyed fields, key => fields.lookup key
  | positional names items, key => (names.zip items).lookup key

/-- A field that must be there. -/
def required (record : Record) (key : String) (decode : Json → Option α) :
    Option α :=
  (record.field? key).bind decode

/-- A field that may be left out. -/
def withDefault (record : Record) (key : String) (fallback : α)
    (decode : Json → Option α) : Option α :=
  match record.field? key with
  | none => some fallback
  | some value => decode value

/-- A field that may be `null`, and may be left out of an object. -/
def nullable (record : Record) (key : String) (decode : Json → Option α) :
    Option (Option α) :=
  match record.field? key, record with
  | some value, _ => value.asOption decode
  | none, keyed _ => some none
  | none, positional _ _ => none

end Record

end BehaviorTree
