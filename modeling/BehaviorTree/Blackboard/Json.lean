import BehaviorTree.Blackboard
import BehaviorTree.NodeState.Json

/-!
# Blackboards as document values
-/

namespace BehaviorTree

namespace Globals

def toJson (globals : Globals) : Json :=
  .ofFields
    [("resources",
       .ofFields (globals.resources.toList.map fun (name, taken) => (name, .bool taken))),
     ("errors", .arr (globals.errors.toList.map .str)),
     ("values", .ofFields globals.values.toList)]

def ofJson (value : Json) : Option Globals := do
  let record ← value.asRecord ["resources", "errors", "values"]
  let resources ← record.required "resources" (·.asFields Json.asBool)
  let errors ← record.required "errors" (Json.asArray Json.asString)
  let values ← record.required "values" (·.asFields some)
  return {
    resources := resources.foldl (fun map (name, taken) => map.insert name taken) ∅
    errors := errors.toArray
    values := values.foldl (fun map (key, value) => map.insert key value) ∅ }

end Globals

namespace Blackboard

/-- View of a blackboard for debugging tools. -/
def snapshot (board : Blackboard) : Json :=
  let hashes (refs : List NodeRef) : Json :=
    .arr (refs.map fun ref => ref.hash.toJson)
  .ofFields
    [("tree", board.tree.toJson),
     ("agent", .ofNat board.agent.toNat),
     ("tick", .ofNat board.tick.toNat),
     ("running_now", hashes board.runningNow),
     ("running_pre", hashes board.runningPre),
     ("nodes",
       .ofFields (board.states.toList.map fun (hash, state) =>
         (hash.text, state.toJson))),
     ("globals", board.globals.toJson)]

end Blackboard

end BehaviorTree
