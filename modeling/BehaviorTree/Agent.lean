import BehaviorTree.Reference

/-!
# Agents

The external entity that a tree drives.  The engine knows an agent only by its
id, its kind and the tree it asks for by default.
-/

namespace BehaviorTree

class Agent (α : Type) where
  /-- Seeds the agent's random stream and orders a batch of agents. -/
  stableId : α → UInt64
  /-- Compared with the kind to which a tree may be restricted. -/
  kind : α → String := fun _ => "agent"
  /-- The tree to bind when none is given. -/
  defaultTree : α → Option TreeSelector := fun _ => none

/-- A number is an agent without a kind or a tree of its own. -/
instance : Agent UInt64 where
  stableId value := value

instance : Agent UInt32 where
  stableId value := value.toUInt64

instance : Agent USize where
  stableId value := value.toUInt64

end BehaviorTree
