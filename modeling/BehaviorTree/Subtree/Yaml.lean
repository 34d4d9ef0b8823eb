import BehaviorTree.Subtree.Json
import BehaviorTree.Yaml.Resolve
import BehaviorTree.Yaml.Typed

/-!
# Subtrees in tree files

The name and the hash of a node are the texts of their scalars.  The type of the
fields of a kind depends on its tag, so these are resolved first.
-/

namespace BehaviorTree

namespace TreeSelector

/-- The ways to select a tree, in the order of their places. -/
def keys : List String := ["Id", "Name"]

end TreeSelector

namespace NodeKind

/-- A kind is a mapping with its tag among the keys, or a sequence that starts
with the tag.  The only mapping that a field of a kind can hold is a selector. -/
def ofYaml : Yaml → Option NodeKind
  | .mapping entries => do
    let (tags, others) := entries.partition (·.1 matches .scalar "type" _)
    let [(_, tag)] := tags | none
    let tag ← tag.asText
    let fields ← Yaml.resolveFields (← fieldNames tag) others
    let resolved ← fields.mapM fun (name, value) =>
      (value.resolve TreeSelector.keys).map (name, ·)
    ofJson (.obj (("type", .str tag) :: resolved))
  | .sequence (tag :: items) => do
    ofJson (.arr (.str (← tag.asText) :: (← Yaml.resolveEach TreeSelector.keys items)))
  | _ => none

end NodeKind

namespace Subtree

/-- Reads a subtree in which at most the given number of collections contain each
other.  A node takes one of them, and the list of its children another one. -/
def ofYamlWithin : Nat → Yaml → Option Subtree
  | room + 2, value => do
    let fields ← value.asRecord ["name", "hash", "weight", "kind", "children"]
    let kind ← fields.lookup "kind"
    if room + 1 < kind.depth then none
    return {
      name := ← (fields.lookup "name").bind Yaml.asText
      hash := ← Yaml.fieldOr fields "hash" none fun hash =>
        (hash.asOption Yaml.asText).map (·.map NodeHash.mk)
      weight := ← Yaml.fieldOr fields "weight" 1.0 Yaml.asFloat
      kind := ← NodeKind.ofYaml kind
      children :=
        ← Yaml.fieldOr fields "children" [] (·.asSequence (ofYamlWithin room)) }
  | _, _ => none

/-- Reads a subtree.  Tree files nest up to 128 collections. -/
def ofYaml (value : Yaml) : Option Subtree := ofYamlWithin 128 value

end Subtree

end BehaviorTree
