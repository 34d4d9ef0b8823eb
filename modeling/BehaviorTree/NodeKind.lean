import BehaviorTree.Reference

/-!
# Kinds of nodes

The closed set of node variants with their static configuration.  A Parallel
may designate one of its children by index; the hooks at the end of this module
keep that index on the same child while the child list is edited.
-/

namespace BehaviorTree

/-- How many children a node may hold. -/
inductive Arity where
  | leaf
  | single
  | many
deriving DecidableEq

namespace Arity

/-- `true` if a node of this arity may hold `count` children. -/
def allows : Arity → Nat → Bool
  | leaf, count => count == 0
  | single, count => count ≤ 1
  | many, _ => true

end Arity

/-- Static configuration of a Parallel. -/
structure ParallelSpec where
  /-- Index of the child whose terminal result ends the Parallel at once. -/
  primaryChild : Option UInt64 := none
  requiredSuccesses : Option UInt32 := none
  requiredFailures : Option UInt32 := none
  /-- Whether the Parallel succeeds when all children finished and no
  threshold was met. -/
  defaultSuccess : Bool := true
deriving DecidableEq, Inhabited

inductive NodeKind where
  | root
  | sequence
  | selector
  | memSequence
  | memSelector
  | probSequence
  | probSelector
  | parallel (spec : ParallelSpec)
  | inverter
  | succeeder
  | failer
  | repeater (repeats : UInt32)
  | limiter (limit : UInt32)
  | allocator (resources : List String)
  | verifier (predicate : String)
  | echoDecorator (message : String)
  | condition (predicate : String)
  | command (action : String)
  | transition (target : Option TreeSelector)
  | echoLeaf (message : String) (succeed : Bool)
deriving DecidableEq, Inhabited

namespace NodeKind

def arity : NodeKind → Arity
  | sequence | selector | memSequence | memSelector | probSequence
  | probSelector | parallel _ => .many
  | root | inverter | succeeder | failer | repeater _ | limiter _
  | allocator _ | verifier _ | echoDecorator _ => .single
  | condition _ | command _ | transition _ | echoLeaf _ _ => .leaf

/-- Name of the kind as it appears in messages. -/
def label : NodeKind → String
  | root => "Root"
  | sequence => "Sequence"
  | selector => "Selector"
  | memSequence => "MemSequence"
  | memSelector => "MemSelector"
  | probSequence => "ProbSequence"
  | probSelector => "ProbSelector"
  | parallel _ => "Parallel"
  | inverter => "Inverter"
  | succeeder => "Succeeder"
  | failer => "Failer"
  | repeater _ => "Repeater"
  | limiter _ => "Limiter"
  | allocator _ => "Allocator"
  | verifier _ => "Verifier"
  | echoDecorator _ => "EchoDecorator"
  | condition _ => "Condition"
  | command _ => "Command"
  | transition _ => "Transition"
  | echoLeaf _ _ => "EchoLeaf"

def isRoot : NodeKind → Bool
  | root => true
  | _ => false

/-- The tree to which a Transition hands over. -/
def transitionTarget : NodeKind → Option TreeSelector
  | transition target => target
  | _ => none

/-- The designated child of a Parallel. -/
def primaryChild : NodeKind → Option UInt64
  | parallel spec => spec.primaryChild
  | _ => none

/-- Moves the designated child of a Parallel, or clears it.  Other kinds and
a Parallel without designated child stay as they are. -/
def mapPrimary (change : UInt64 → Option UInt64) : NodeKind → NodeKind
  | parallel spec =>
    parallel { spec with primaryChild := spec.primaryChild.bind change }
  | kind => kind

/-- The designated child moves up for a child that comes in at `index`. -/
def withRoomAt (kind : NodeKind) (index : Nat) : NodeKind :=
  kind.mapPrimary fun primary =>
    if index ≤ primary.toNat then some (primary + 1) else some primary

/-- The designated child would have to move up, but has the largest index. -/
def overflowsAt (kind : NodeKind) (index : Nat) : Bool :=
  kind.primaryChild.any fun primary =>
    decide (index ≤ primary.toNat ∧ primary.toNat + 1 = UInt64.size)

/-- Follows the designated child after a child was inserted at `index`, unless
there is no index for it. -/
def childAdded (kind : NodeKind) (index : Nat) : Option NodeKind :=
  if kind.overflowsAt index then none else some (kind.withRoomAt index)

/-- Follows the designated child after the child at `index` was removed. -/
def childRemoved (kind : NodeKind) (index : Nat) : NodeKind :=
  kind.mapPrimary fun primary =>
    if primary.toNat = index then none
    else if index < primary.toNat then some (primary - 1)
    else some primary

/-- Follows the designated child after two children traded places. -/
def childrenSwapped (kind : NodeKind) (first second : Nat) : NodeKind :=
  kind.mapPrimary fun primary =>
    if primary.toNat = first then some second.toUInt64
    else if primary.toNat = second then some first.toUInt64
    else some primary

/-- Follows the designated child after the child at `index` was replaced by
another node.  The one that left made room. -/
def childReplaced (kind : NodeKind) (index : Nat) : NodeKind :=
  (kind.childRemoved index).withRoomAt index

/-- Follows the designated child after a child moved among its siblings: a
removal at `source` followed by an insertion at `target`. -/
def childMoved (kind : NodeKind) (source target : Nat) : NodeKind :=
  kind.mapPrimary fun primary =>
    if primary.toNat = source then some target.toUInt64
    else
      let settled := if source < primary.toNat then primary - 1 else primary
      if target ≤ settled.toNat then some (settled + 1) else some settled

end NodeKind

end BehaviorTree
