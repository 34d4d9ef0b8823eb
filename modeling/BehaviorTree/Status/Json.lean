import BehaviorTree.Json
import BehaviorTree.Status

/-!
# Statuses as document values
-/

namespace BehaviorTree

namespace Status

/-- The word by which a status is written. -/
def word : Status → String
  | success => "Success"
  | failure => "Failure"
  | running => "Running"
  | error => "Error"

def ofWord : String → Option Status
  | "Success" => some success
  | "Failure" => some failure
  | "Running" => some running
  | "Error" => some error
  | _ => none

def toJson (status : Status) : Json := .str status.word

/-- A status is read from its word, or from an object that holds nothing under
that word. -/
def ofJson : Json → Option Status
  | .str word => ofWord word
  | .obj [(word, .null)] => ofWord word
  | _ => none

/-- Among the fields beside a tag, an object without fields is nothing, too. -/
def ofTaggedJson : Json → Option Status
  | .obj [(word, .obj [])] => ofWord word
  | value => ofJson value

end Status

end BehaviorTree
