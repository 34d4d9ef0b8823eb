import BehaviorTree.NodeKind.Json
import BehaviorTree.Subtree

/-!
# Subtrees as document values
-/

namespace BehaviorTree

/-- A weight; a document has no number for one that is not finite. -/
def Json.ofWeight (weight : Float) : Json :=
  if weight.isFinite then .float weight else .null

namespace Subtree

mutual

def toJson : Subtree → Json
  | ⟨name, hash, weight, kind, children⟩ =>
    .ofFields
      [("name", .str name),
       ("hash", .ofOption NodeHash.toJson hash),
       ("weight", .ofWeight weight),
       ("kind", kind.toJson),
       ("children", .arr (toJsonEach children))]

def toJsonEach : List Subtree → List Json
  | [] => []
  | child :: rest => child.toJson :: toJsonEach rest

end

/-- Reads a subtree in which at most the given number of containers contain each
other.  A node takes one of them, and the list of its children another one. -/
def ofJsonWithin : Nat → Json → Option Subtree
  | room + 2, value => do
    let record ← value.asRecord ["name", "hash", "weight", "kind", "children"]
    return {
      name := ← record.required "name" Json.asString
      hash := ← record.withDefault "hash" none (·.asOption NodeHash.ofJson)
      weight := ← record.withDefault "weight" 1.0 Json.asFloat
      kind := ← record.required "kind" fun kind =>
        if room + 1 < kind.depth then none else NodeKind.ofJson kind
      children :=
        ← record.withDefault "children" [] (Json.asArray (ofJsonWithin room)) }
  | _, _ => none

/-- Reads a subtree from a document that does not nest too deep. -/
def ofJson (value : Json) : Option Subtree := ofJsonWithin Json.maxDepth value

end Subtree

end BehaviorTree
