import BehaviorTree.Json
import BehaviorTree.TopologyError

/-!
# Refusals as document values

A refusal is written as its name and its message.
-/

namespace BehaviorTree

/-- An error by its name, with a message. -/
def Json.ofError (name message : String) : Json :=
  .ofFields [("error", .str name), ("message", .str message)]

namespace TopologyError

def name : TopologyError → String
  | unknownNode _ => "UnknownNode"
  | unknownTree _ => "UnknownTree"
  | leafTarget _ _ => "LeafTarget"
  | targetOccupied _ _ => "TargetOccupied"
  | rootNode => "RootNode"
  | notInSource _ => "NotInSource"
  | notComposite _ => "NotComposite"
  | wouldCycle _ => "WouldCycle"
  | selfInterpose _ => "SelfInterpose"
  | malformedSubtree _ => "MalformedSubtree"
  | arityMismatch _ _ => "ArityMismatch"
  | sameTree _ => "SameTree"

def toJson (cause : TopologyError) : Json := .ofError cause.name cause.message

end TopologyError

namespace ValidationError

def name : ValidationError → String
  | missingChild _ _ _ => "MissingChild"

def toJson (cause : ValidationError) : Json := .ofError cause.name cause.message

end ValidationError

end BehaviorTree
