import BehaviorTree.Json.Record
import BehaviorTree.Reference

/-!
# References as document values
-/

namespace BehaviorTree

namespace TreeId

def toJson (id : TreeId) : Json := .ofNat id.value.toNat

def ofJson (value : Json) : Option TreeId := value.asUInt64.map TreeId.mk

end TreeId

namespace NodeHash

def toJson (hash : NodeHash) : Json := .str hash.text

def ofJson (value : Json) : Option NodeHash := value.asString.map NodeHash.mk

end NodeHash

namespace NodeRef

def toJson (ref : NodeRef) : Json :=
  .ofFields [("tree", ref.tree.toJson), ("hash", ref.hash.toJson)]

def ofJson (value : Json) : Option NodeRef := do
  let record ← value.asRecord ["tree", "hash"]
  return {
    tree := ← record.required "tree" TreeId.ofJson
    hash := ← record.required "hash" NodeHash.ofJson }

end NodeRef

namespace TreeSelector

/-- A selector is an object whose only key says how it selects. -/
def toJson : TreeSelector → Json
  | byId id => .obj [("Id", id.toJson)]
  | byName name => .obj [("Name", .str name)]

def ofJson : Json → Option TreeSelector
  | .obj [("Id", value)] => (TreeId.ofJson value).map byId
  | .obj [("Name", value)] => value.asString.map byName
  | _ => none

end TreeSelector

end BehaviorTree
