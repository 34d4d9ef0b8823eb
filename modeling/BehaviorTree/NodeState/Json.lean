import BehaviorTree.NodeState
import BehaviorTree.Status.Json
import BehaviorTree.Subtree.Json

/-!
# Node states as document values
-/

namespace BehaviorTree

namespace KindState

/-- A pool as an array of pairs. -/
def poolToJson (pool : List (Nat × Float)) : Json :=
  .arr (pool.map fun (index, weight) => .arr [.ofNat index, .ofWeight weight])

def poolEntryOfJson : Json → Option (Nat × Float)
  | .arr [index, weight] => do
    return (← index.asBelow UInt64.size, ← weight.asFloat)
  | _ => none

def toJson : KindState → Json
  | plain => .ofFields [("kind", .str "plain")]
  | mem runningChild =>
    .ofFields [("kind", .str "mem"), ("running_child", .ofNat runningChild)]
  | prob childWeights available runningChild =>
    .ofFields
      [("kind", .str "prob"),
       ("child_weights",
         .ofFields (childWeights.toList.map fun (hash, weight) =>
           (hash.text, .ofWeight weight))),
       ("avail_weights", poolToJson available),
       ("running_child", .ofOption .ofNat runningChild)]
  | parallel results spec =>
    .ofFields
      (("kind", .str "parallel") ::
        ("states", .arr (results.map (.ofOption Status.toJson))) ::
        (NodeKind.parallel spec).configFields)
  | repeater repeats count =>
    .ofFields
      [("kind", .str "repeater"), ("repeats", .ofNat repeats.toNat),
       ("count", .ofNat count.toNat)]
  | limiter limit remaining =>
    .ofFields
      [("kind", .str "limiter"), ("limit", .ofNat limit.toNat),
       ("remaining", .ofNat remaining.toNat)]

/-- The names of the fields beside a tag. -/
def fieldNames : String → Option (List String)
  | "plain" => some []
  | "mem" => some ["running_child"]
  | "prob" => some ["child_weights", "avail_weights", "running_child"]
  | "parallel" =>
    some
      ["states", "primary_child", "req_successes", "req_failures",
       "default_success"]
  | "repeater" => some ["repeats", "count"]
  | "limiter" => some ["limit", "remaining"]
  | _ => none

def weightsOfJson (value : Json) : Option (Std.ExtTreeMap NodeHash Float) := do
  let fields ← value.asFields Json.asFloat
  return fields.foldl (fun weights (key, weight) => weights.insert ⟨key⟩ weight) ∅

def ofTagged (tag : String) (record : Record) : Option KindState :=
  match tag with
  | "plain" => some plain
  | "mem" => (record.required "running_child" (·.asBelow UInt64.size)).map mem
  | "prob" => do
    let childWeights ← record.required "child_weights" weightsOfJson
    let available ← record.required "avail_weights" (Json.asArray poolEntryOfJson)
    let runningChild ← record.nullable "running_child" (·.asBelow UInt64.size)
    return prob childWeights available runningChild
  | "parallel" => do
    let results ←
      record.required "states" (Json.asArray (·.asOption Status.ofTaggedJson))
    let spec := {
      primaryChild := ← record.nullable "primary_child" Json.asUInt64
      requiredSuccesses := ← record.nullable "req_successes" Json.asUInt32
      requiredFailures := ← record.nullable "req_failures" Json.asUInt32
      defaultSuccess := ← record.required "default_success" Json.asBool }
    return parallel results spec
  | "repeater" => do
    let repeats ← record.required "repeats" Json.asUInt32
    let count ← record.required "count" Json.asUInt32
    return repeater repeats count
  | "limiter" => do
    let limit ← record.required "limit" Json.asUInt32
    let remaining ← record.required "remaining" Json.asUInt32
    return limiter limit remaining
  | _ => none

def ofJson (value : Json) : Option KindState := do
  let (tag, record) ← value.asVariant "kind" fieldNames
  ofTagged tag record

end KindState

namespace NodeState

def toJson (state : NodeState) : Json :=
  .ofFields
    [("weight", .ofWeight state.weight),
     ("running", .bool state.running),
     ("ticks", .ofNat state.ticks.toNat),
     ("watchers", .arr (state.watchers.toList.map .str)),
     ("kind", state.kind.toJson)]

def ofJson (value : Json) : Option NodeState := do
  let record ← value.asRecord ["weight", "running", "ticks", "watchers", "kind"]
  let watchers ← record.required "watchers" (Json.asArray Json.asString)
  return {
    weight := ← record.required "weight" Json.asFloat
    running := ← record.required "running" Json.asBool
    ticks := ← record.required "ticks" Json.asUInt64
    watchers := watchers.foldl (fun set watcher => set.insert watcher) ∅
    kind := ← record.required "kind" KindState.ofJson }

end NodeState

end BehaviorTree
