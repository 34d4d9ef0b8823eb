import BehaviorTree.HashMinter

/-!
# Configuration
-/

namespace BehaviorTree

/-- Execution settings of a handler. -/
structure HandlerConfig where
  /-- Mixed with the agent id and the tree id into the seed of the blackboard's
  random stream. -/
  seed : UInt64 := 0
  /-- Node ticks allowed per handler tick; unbounded when absent. -/
  maxStepsPerTick : Option UInt64 := none
  /-- Nested Transition jumps allowed within one tick. -/
  maxTransitionDepth : UInt32 := 16
  /-- Emit an event when a node is opened, closed or abandoned. -/
  traceLifecycle : Bool := false
  /-- Keep trace events in a log on the blackboard. -/
  recordTrace : Bool := false
deriving DecidableEq, Inhabited

/-- Top-level configuration. -/
structure EngineConfig where
  hashing : HashConfig := {}
  handler : HandlerConfig := {}
deriving DecidableEq, Inhabited

end BehaviorTree
