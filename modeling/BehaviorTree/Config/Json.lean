import BehaviorTree.Config
import BehaviorTree.Json.Record

/-!
# Configuration as document values

Every setting may be left out and then has its default.
-/

namespace BehaviorTree

namespace HashConfig

def toJson (config : HashConfig) : Json :=
  .ofFields
    [("token_len", .ofNat config.tokenLength.toNat),
     ("max_attempts", .ofNat config.maxAttempts.toNat),
     ("seed", .ofNat config.seed.toNat)]

def fieldNames : List String := ["token_len", "max_attempts", "seed"]

def ofRecord (record : Record) : Option HashConfig := do
  return {
    tokenLength := ← record.withDefault "token_len" 4 Json.asUInt64
    maxAttempts := ← record.withDefault "max_attempts" 64 Json.asUInt32
    seed := ← record.withDefault "seed" 0 Json.asUInt64 }

def ofJson (value : Json) : Option HashConfig :=
  (value.asRecord fieldNames).bind ofRecord

end HashConfig

namespace HandlerConfig

def toJson (config : HandlerConfig) : Json :=
  .ofFields
    [("seed", .ofNat config.seed.toNat),
     ("max_steps_per_tick",
       .ofOption (fun budget => .ofNat budget.toNat) config.maxStepsPerTick),
     ("max_transition_depth", .ofNat config.maxTransitionDepth.toNat),
     ("trace_lifecycle", .bool config.traceLifecycle),
     ("record_trace", .bool config.recordTrace)]

def fieldNames : List String :=
  ["seed", "max_steps_per_tick", "max_transition_depth", "trace_lifecycle",
   "record_trace"]

def ofRecord (record : Record) : Option HandlerConfig := do
  return {
    seed := ← record.withDefault "seed" 0 Json.asUInt64
    maxStepsPerTick :=
      ← record.withDefault "max_steps_per_tick" none (·.asOption Json.asUInt64)
    maxTransitionDepth := ← record.withDefault "max_transition_depth" 16 Json.asUInt32
    traceLifecycle := ← record.withDefault "trace_lifecycle" false Json.asBool
    recordTrace := ← record.withDefault "record_trace" false Json.asBool }

def ofJson (value : Json) : Option HandlerConfig :=
  (value.asRecord fieldNames).bind ofRecord

end HandlerConfig

namespace EngineConfig

def toJson (config : EngineConfig) : Json :=
  .ofFields
    [("hashing", config.hashing.toJson), ("handler", config.handler.toJson)]

def fieldNames : List String := ["hashing", "handler"]

def ofRecord (record : Record) : Option EngineConfig := do
  return {
    hashing := ← record.withDefault "hashing" {} HashConfig.ofJson
    handler := ← record.withDefault "handler" {} HandlerConfig.ofJson }

def ofJson (value : Json) : Option EngineConfig :=
  (value.asRecord fieldNames).bind ofRecord

end EngineConfig

end BehaviorTree
