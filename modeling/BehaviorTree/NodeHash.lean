import Std.Data.ExtTreeMap

/-!
# Tree ids and node hashes

A node is known by a short text such as `k3x9-7`.  What follows the last dash
is the scope of the hash: the id of the tree that assigned it.
-/

namespace BehaviorTree

/-- Identifies a tree among all trees of the process. -/
structure TreeId where
  value : UInt64
deriving DecidableEq, Inhabited

namespace TreeId

/-- Decimal digits of the id. -/
def text (id : TreeId) : String := id.value.toNat.repr

instance : ToString TreeId := ⟨text⟩

instance : Ord TreeId := ⟨fun left right => compare left.value right.value⟩

instance : Std.TransOrd TreeId :=
  inferInstanceAs (Std.TransCmp (compareOn TreeId.value))

instance : Std.LawfulEqOrd TreeId where
  eq_of_compare {left right} same := by
    cases left
    cases right
    exact congrArg TreeId.mk (Std.LawfulEqOrd.eq_of_compare same)

end TreeId

/-- Reads an unsigned decimal number: an optional plus sign and at least one
digit.  Leading zeros do not matter. -/
def readUnsigned (chars : List Char) : Option Nat :=
  let digits := match chars with
    | '+' :: rest => rest
    | all => all
  if digits.isEmpty || !digits.all Char.isDigit then none
  else some (Nat.ofDigitChars 10 digits 0)

/-- The characters after the last dash, if there is a dash. -/
def afterLastDash : List Char → Option (List Char)
  | [] => none
  | char :: rest =>
    match afterLastDash rest with
    | some found => some found
    | none => if char = '-' then some rest else none

/-- Identifies a node; unique among the nodes of one tree. -/
structure NodeHash where
  text : String
deriving DecidableEq, Inhabited

namespace NodeHash

instance : ToString NodeHash := ⟨NodeHash.text⟩

instance : Ord NodeHash := ⟨fun left right => compare left.text right.text⟩

instance : Std.TransOrd NodeHash :=
  inferInstanceAs (Std.TransCmp (compareOn NodeHash.text))

instance : Std.LawfulEqOrd NodeHash where
  eq_of_compare {left right} same := by
    cases left
    cases right
    exact congrArg NodeHash.mk (Std.LawfulEqOrd.eq_of_compare same)

/-- The text after the last dash. -/
def scope (hash : NodeHash) : Option String :=
  (afterLastDash hash.text.toList).map String.ofList

/-- The tree id that the scope spells, if it spells one. -/
def scopeId (hash : NodeHash) : Option TreeId := do
  let scope ← afterLastDash hash.text.toList
  let value ← readUnsigned scope
  if value < UInt64.size then some ⟨value.toUInt64⟩ else none

def isScopedTo (hash : NodeHash) (tree : TreeId) : Bool :=
  hash.scopeId == some tree

/-- The hash with the given token in the scope of a tree. -/
def ofToken (token : List Char) (tree : TreeId) : NodeHash :=
  ⟨String.ofList (token ++ '-' :: Nat.toDigits 10 tree.value.toNat)⟩

end NodeHash

end BehaviorTree
