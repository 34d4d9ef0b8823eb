import Std.Data.ExtTreeSet
import BehaviorTree.Tree
import BehaviorTree.Status

/-!
# Instance state of a node

What a blackboard keeps for one node and one agent: running flag, tick count and
a part whose shape depends on the node's kind.
-/

namespace BehaviorTree

/-- Used when a configured weight is negative or not finite. -/
def fallbackWeight : Float := 1.0

def sanitizeWeight (weight : Float) : Float :=
  if weight.isFinite && weight >= 0.0 then weight else fallbackWeight

/-- The part of a node's state that depends on its kind. -/
inductive KindState where
  | plain
  /-- The child at which a Mem composite resumes. -/
  | mem (runningChild : Nat)
  /-- A Prob composite: the weight of each child, the children not yet drawn in
  this activation with their weights, and the child that was running. -/
  | prob (childWeights : Std.ExtTreeMap NodeHash Float)
      (available : List (Nat × Float)) (runningChild : Option Nat)
  /-- A Parallel: the latest result of each child in this activation, and the
  configuration in force. -/
  | parallel (results : List (Option Status)) (spec : ParallelSpec)
  /-- A Repeater: its configuration and the child runs counted so far. -/
  | repeater (repeats count : UInt32)
  /-- A Limiter: its configuration and the uses it has left. -/
  | limiter (limit remaining : UInt32)
deriving Inhabited

/-- The shapes that the kind-dependent part of a state can have. -/
inductive StateShape where
  | plain
  | mem
  | prob
  | parallel
  | repeater
  | limiter
deriving DecidableEq

/-- The shape with which nodes of a kind execute. -/
def NodeKind.stateShape : NodeKind → StateShape
  | memSequence | memSelector => .mem
  | probSequence | probSelector => .prob
  | parallel _ => .parallel
  | repeater _ => .repeater
  | limiter _ => .limiter
  | _ => .plain

namespace KindState

def shape : KindState → StateShape
  | plain => .plain
  | mem _ => .mem
  | prob _ _ _ => .prob
  | parallel _ _ => .parallel
  | repeater _ _ => .repeater
  | limiter _ _ => .limiter

/-- `true` if this is the shape with which nodes of a kind execute. -/
def fits (state : KindState) (kind : NodeKind) : Bool :=
  state.shape = kind.stateShape

end KindState

/-- Instance state of one node for one agent. -/
structure NodeState where
  weight : Float
  running : Bool
  /-- Times the node has been ticked. -/
  ticks : UInt64
  /-- Observers interested in this node. -/
  watchers : Std.ExtTreeSet String
  kind : KindState
deriving Inhabited

namespace NodeState

/-- Weight of a registered child; the fallback for an unknown one. -/
def staticWeight (tree : Tree) (child : NodeHash) : Float :=
  match tree.nodes[child]? with
  | some node => sanitizeWeight node.weight
  | none => sanitizeWeight fallbackWeight

/-- The weights that a Prob composite starts with. -/
def staticWeights (tree : Tree) (children : List NodeHash) :
    Std.ExtTreeMap NodeHash Float :=
  children.foldl (fun weights child => weights.insert child (staticWeight tree child)) ∅

/-- The shape with which a node starts. -/
def initialKind (tree : Tree) (node : Node) : KindState :=
  match node.kind with
  | .memSequence | .memSelector => .mem 0
  | .probSequence | .probSelector =>
    .prob (staticWeights tree node.children) [] none
  | .parallel spec => .parallel [] spec
  | .repeater repeats => .repeater repeats 0
  | .limiter limit => .limiter limit limit
  | _ => .plain

/-- Defaults for a node, from the static configuration of its kind. -/
def forNode (tree : Tree) (node : Node) : NodeState :=
  { weight := sanitizeWeight node.weight
    running := false
    ticks := 0
    watchers := ∅
    kind := initialKind tree node }

/-- The smaller number taken away from the larger, or zero. -/
def saturatingSub (left right : UInt32) : UInt32 :=
  if right ≤ left then left - right else 0

/-- Refreshes the configuration copied from a node's kind and keeps progress.
A Limiter whose limit changed keeps the number of uses already spent. -/
def syncKind (state : KindState) (kind : NodeKind) : KindState :=
  match state, kind with
  | .parallel results _, .parallel spec => .parallel results spec
  | .repeater _ count, .repeater repeats => .repeater repeats count
  | .limiter limit remaining, .limiter configured =>
    if limit = configured then .limiter limit remaining
    else
      .limiter configured
        (saturatingSub configured (saturatingSub limit remaining))
  | state, _ => state

def syncConfig (state : NodeState) (node : Node) : NodeState :=
  { state with kind := syncKind state.kind node.kind }

/-- Resume index of a Mem composite or the running child of a Prob one. -/
def runningChild (state : NodeState) : Option Nat :=
  match state.kind with
  | .mem runningChild => some runningChild
  | .prob _ _ runningChild => runningChild
  | _ => none

/-- Weight that a Prob composite gives a child. -/
def childWeight (state : NodeState) (child : NodeHash) : Option Float :=
  match state.kind with
  | .prob childWeights _ _ => childWeights[child]?
  | _ => none

/-- Overrides the weight that a Prob composite gives a child; nothing for other
kinds. -/
def setChildWeight (state : NodeState) (child : NodeHash) (weight : Float) :
    Option NodeState :=
  match state.kind with
  | .prob childWeights available runningChild =>
    some
      { state with
        kind :=
          .prob (childWeights.insert child (sanitizeWeight weight)) available
            runningChild }
  | _ => none

/-- Children that a Prob composite can still draw in this activation. -/
def availableWeights (state : NodeState) : List (Nat × Float) :=
  match state.kind with
  | .prob _ available _ => available
  | _ => []

/-- Completed child runs of a Repeater. -/
def repeatCount (state : NodeState) : Option UInt32 :=
  match state.kind with
  | .repeater _ count => some count
  | _ => none

/-- Uses that a Limiter has left. -/
def remaining (state : NodeState) : Option UInt32 :=
  match state.kind with
  | .limiter _ remaining => some remaining
  | _ => none

/-- Sets the uses that a Limiter has left; nothing for other kinds. -/
def setRemaining (state : NodeState) (remaining : UInt32) : Option NodeState :=
  match state.kind with
  | .limiter limit _ => some { state with kind := .limiter limit remaining }
  | _ => none

/-- Results of a Parallel's children in this activation. -/
def parallelResults (state : NodeState) : List (Option Status) :=
  match state.kind with
  | .parallel results _ => results
  | _ => []

end NodeState

end BehaviorTree
