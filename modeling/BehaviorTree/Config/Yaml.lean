import BehaviorTree.Config.Json
import BehaviorTree.Directory
import BehaviorTree.Yaml.Reader
import BehaviorTree.Yaml.Typed

/-!
# Configuration files

The configuration of an engine is kept in a file of a project directory.  A
directory without that file has the default configuration.
-/

namespace BehaviorTree

namespace HashConfig

def ofYaml (value : Yaml) : Option HashConfig := do
  let fields ← value.asRecord fieldNames
  return {
    tokenLength := ← Yaml.fieldOr fields "token_len" 4 Yaml.asUInt64
    maxAttempts := ← Yaml.fieldOr fields "max_attempts" 64 Yaml.asUInt32
    seed := ← Yaml.fieldOr fields "seed" 0 Yaml.asUInt64 }

def yamlLines (config : HashConfig) : List String :=
  ["token_len: " ++ config.tokenLength.toNat.repr,
   "max_attempts: " ++ config.maxAttempts.toNat.repr,
   "seed: " ++ config.seed.toNat.repr]

end HashConfig

namespace HandlerConfig

def ofYaml (value : Yaml) : Option HandlerConfig := do
  let fields ← value.asRecord fieldNames
  return {
    seed := ← Yaml.fieldOr fields "seed" 0 Yaml.asUInt64
    maxStepsPerTick :=
      ← Yaml.fieldOr fields "max_steps_per_tick" none (·.asOption Yaml.asUInt64)
    maxTransitionDepth :=
      ← Yaml.fieldOr fields "max_transition_depth" 16 Yaml.asUInt32
    traceLifecycle := ← Yaml.fieldOr fields "trace_lifecycle" false Yaml.asBool
    recordTrace := ← Yaml.fieldOr fields "record_trace" false Yaml.asBool }

def yamlLines (config : HandlerConfig) : List String :=
  let budget := match config.maxStepsPerTick with
    | some budget => budget.toNat.repr
    | none => "null"
  ["seed: " ++ config.seed.toNat.repr,
   "max_steps_per_tick: " ++ budget,
   "max_transition_depth: " ++ config.maxTransitionDepth.toNat.repr,
   "trace_lifecycle: " ++ toString config.traceLifecycle,
   "record_trace: " ++ toString config.recordTrace]

end HandlerConfig

/-- Why a file could not be loaded. -/
inductive LoadFailure where
  | unreadable
  | malformed
deriving DecidableEq

namespace EngineConfig

def ofYaml (value : Yaml) : Option EngineConfig := do
  let fields ← value.asRecord fieldNames
  return {
    hashing := ← Yaml.fieldOr fields "hashing" {} HashConfig.ofYaml
    handler := ← Yaml.fieldOr fields "handler" {} HandlerConfig.ofYaml }

def yamlLines (config : EngineConfig) : List String :=
  "hashing:" :: config.hashing.yamlLines.map ("  " ++ ·) ++
    "handler:" :: config.handler.yamlLines.map ("  " ++ ·)

/-- The name of the configuration file in a project directory. -/
def fileName : String := "canopy.yaml"

/-- Reads the configuration that a file holds. -/
def load : FileContent → Except LoadFailure EngineConfig
  | .text content =>
    match (Yaml.parse content).bind ofYaml with
    | some config => .ok config
    | none => .error .malformed
  | _ => .error .unreadable

/-- Reads the configuration of a project directory. -/
def loadFromProject : FileContent → Except LoadFailure EngineConfig
  | .missing => .ok {}
  | content => load content

/-- The message of a failure to load the configuration at a path. -/
def failureMessage (path : String) : LoadFailure → String
  | .unreadable => "Failed to read config from " ++ path
  | .malformed => "Failed to parse config from " ++ path

end EngineConfig

end BehaviorTree
