import BehaviorTree.Reference.Json
import BehaviorTree.Trace

/-!
# Traces as document values
-/

namespace BehaviorTree

namespace TraceEvent

def toJson (event : TraceEvent) : Json :=
  .ofFields
    [("tick", .ofNat event.tick.toNat),
     ("tag", .str event.tag),
     ("node", .ofOption NodeHash.toJson event.node),
     ("detail", .str event.detail)]

def ofJson (value : Json) : Option TraceEvent := do
  let record ← value.asRecord ["tick", "tag", "node", "detail"]
  return {
    tick := ← record.required "tick" Json.asUInt64
    tag := ← record.required "tag" Json.asString
    node := ← record.nullable "node" NodeHash.ofJson
    detail := ← record.required "detail" Json.asString }

end TraceEvent

namespace TraceLog

def toJson (log : TraceLog) : Json :=
  .ofFields [("events", .arr (log.events.toList.map TraceEvent.toJson))]

def ofJson (value : Json) : Option TraceLog := do
  let record ← value.asRecord ["events"]
  let events ← record.required "events" (Json.asArray TraceEvent.ofJson)
  return ⟨events.toArray⟩

end TraceLog

end BehaviorTree
