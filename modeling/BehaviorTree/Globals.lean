import Std.Data.ExtTreeMap
import BehaviorTree.Json

/-!
# Globals

Agent-wide values that every node of a tick can see: resources that Allocator
nodes wait for, the execution problems recorded so far, and free-form values
for conditions and commands.
-/

namespace BehaviorTree

structure Globals where
  /-- Whether a resource is taken. -/
  resources : Std.ExtTreeMap String Bool := ∅
  errors : Array String := #[]
  values : Std.ExtTreeMap String Json := ∅
deriving Inhabited

namespace Globals

def isTaken (globals : Globals) (resource : String) : Bool :=
  globals.resources.getD resource false

def claim (globals : Globals) (resource : String) : Globals :=
  { globals with resources := globals.resources.insert resource true }

/-- Frees a resource that is known; other names are not recorded. -/
def release (globals : Globals) (resource : String) : Globals :=
  { globals with
    resources := globals.resources.modify resource fun _ => false }

/-- Records an execution problem. -/
def addError (globals : Globals) (message : String) : Globals :=
  { globals with errors := globals.errors.push message }

def setValue (globals : Globals) (key : String) (value : Json) : Globals :=
  { globals with values := globals.values.insert key value }

def eraseValue (globals : Globals) (key : String) : Globals :=
  { globals with values := globals.values.erase key }

end Globals

end BehaviorTree
