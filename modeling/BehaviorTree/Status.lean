/-!
# Status of a node

The result of ticking a node.  Everything but `running` ends the node's
activation.
-/

namespace BehaviorTree

/-- Result of ticking a node. -/
inductive Status where
  | success
  | failure
  | running
  | error
deriving DecidableEq, Inhabited

namespace Status

def isTerminal : Status → Bool
  | running => false
  | _ => true

def ofBool : Bool → Status
  | true => success
  | false => failure

/-- Exchanges `success` and `failure`; the other two pass through. -/
def invert : Status → Status
  | success => failure
  | failure => success
  | other => other

/-- Turns `failure` into `success`; everything else passes through. -/
def succeed : Status → Status
  | failure => success
  | other => other

/-- Turns `success` into `failure`; everything else passes through. -/
def fail : Status → Status
  | success => failure
  | other => other

/-- Lower-case word shown to people. -/
def text : Status → String
  | success => "success"
  | failure => "failure"
  | running => "running"
  | error => "error"

instance : ToString Status := ⟨text⟩

end Status

end BehaviorTree
