/-!
# Document values

The values of a JSON document.  Whole numbers and floating-point numbers are
told apart, and the fields of an object are kept in the order of their keys.
-/

namespace BehaviorTree

/-- A document value. -/
inductive Json where
  | null
  | bool (value : Bool)
  | int (value : Int)
  | float (value : Float)
  | str (value : String)
  | arr (items : List Json)
  | obj (fields : List (String × Json))
deriving Inhabited

namespace Json

/-- Inserts a field at its place in the order of keys, in place of any field
with the same key. -/
def insertField (key : String) (value : Json) :
    List (String × Json) → List (String × Json)
  | [] => [(key, value)]
  | (other, held) :: rest =>
    if key = other then (key, value) :: rest
    else if key < other then (key, value) :: (other, held) :: rest
    else (other, held) :: insertField key value rest

/-- The object with the given fields; of two fields with one key the later one
stays. -/
def ofFields (fields : List (String × Json)) : Json :=
  obj (fields.foldl (fun sorted (key, value) => insertField key value sorted) [])

def ofOption {α : Type} (encode : α → Json) : Option α → Json
  | some value => encode value
  | none => null

def ofNat (value : Nat) : Json := int value

/-- The field of an object. -/
def field? : Json → String → Option Json
  | obj fields, key => fields.lookup key
  | _, _ => none

mutual

/-- How many containers of a document contain each other. -/
def depth : Json → Nat
  | arr items => 1 + depthEach items
  | obj fields => 1 + depthFields fields
  | _ => 0

def depthEach : List Json → Nat
  | [] => 0
  | item :: rest => max item.depth (depthEach rest)

def depthFields : List (String × Json) → Nat
  | [] => 0
  | (_, item) :: rest => max item.depth (depthFields rest)

end

/-- How many containers may contain each other in a document that is read. -/
def maxDepth : Nat := 127

def asBool : Json → Option Bool
  | bool value => some value
  | _ => none

def asString : Json → Option String
  | str value => some value
  | _ => none

/-- A whole number from zero up to, but without, the bound. -/
def asBelow (bound : Nat) : Json → Option Nat
  | int value =>
    if 0 ≤ value ∧ value < (bound : Int) then some value.toNat else none
  | _ => none

def asUInt64 (value : Json) : Option UInt64 :=
  (value.asBelow UInt64.size).map Nat.toUInt64

def asUInt32 (value : Json) : Option UInt32 :=
  (value.asBelow UInt32.size).map Nat.toUInt32

/-- A floating-point number, or the one nearest to a whole number. -/
def asFloat : Json → Option Float
  | float value => some value
  | int value => some (Float.ofInt value)
  | _ => none

def asArray {α : Type} (decode : Json → Option α) : Json → Option (List α)
  | arr items => items.mapM decode
  | _ => none

/-- `null` stands for no value. -/
def asOption {α : Type} (decode : Json → Option α) : Json → Option (Option α)
  | null => some none
  | value => (decode value).map some

/-- The fields of an object, with every value decoded. -/
def asFields {α : Type} (decode : Json → Option α) :
    Json → Option (List (String × α))
  | obj fields => fields.mapM fun (key, value) => (decode value).map (key, ·)
  | _ => none

end Json

end BehaviorTree
