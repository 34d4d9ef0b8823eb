import BehaviorTree.Handler
import BehaviorTree.TopologyError.Json

/-!
# Failures of handlers as document values
-/

namespace BehaviorTree

namespace ResolutionError

def name : ResolutionError → String
  | noTree => "NoTree"
  | unknownTree _ => "UnknownTree"
  | agentMismatch _ _ _ => "AgentMismatch"
  | invalid _ => "Invalid"

def toJson (cause : ResolutionError) : Json := .ofError cause.name cause.message

end ResolutionError

namespace TickError

def name : TickError → String
  | notSetUp => "NotSetUp"
  | treeMissing _ => "TreeMissing"

def toJson (cause : TickError) : Json := .ofError cause.name cause.message

end TickError

end BehaviorTree
