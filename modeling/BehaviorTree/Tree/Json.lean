import BehaviorTree.Subtree.Json
import BehaviorTree.Tree

/-!
# Registered nodes as document values
-/

namespace BehaviorTree

namespace Node

def toJson (node : Node) : Json :=
  .ofFields
    [("name", .str node.name),
     ("hash", node.hash.toJson),
     ("parent", .ofOption NodeHash.toJson node.parent),
     ("children", .arr (node.children.map NodeHash.toJson)),
     ("weight", .ofWeight node.weight),
     ("kind", node.kind.toJson)]

def ofJson (value : Json) : Option Node := do
  let record ←
    value.asRecord ["name", "hash", "parent", "children", "weight", "kind"]
  return {
    name := ← record.required "name" Json.asString
    hash := ← record.required "hash" NodeHash.ofJson
    parent := ← record.nullable "parent" NodeHash.ofJson
    children := ← record.required "children" (Json.asArray NodeHash.ofJson)
    weight := ← record.required "weight" Json.asFloat
    kind := ← record.required "kind" NodeKind.ofJson }

end Node

end BehaviorTree
