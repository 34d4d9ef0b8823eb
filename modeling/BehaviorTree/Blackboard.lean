import BehaviorTree.Config
import BehaviorTree.Forest
import BehaviorTree.Globals
import BehaviorTree.NodeState
import BehaviorTree.Trace

/-!
# Blackboards

Execution state of one agent on one tree.  Node state is keyed by hash alone:
hashes carry the scope of their tree, so nodes reached through Transitions share
the map without clashing.
-/

namespace BehaviorTree

structure Blackboard where
  tree : TreeId
  agent : UInt64
  /-- Nodes that returned `running` during the latest tick, in tick order. -/
  runningNow : List NodeRef
  /-- Nodes that returned `running` during the tick before. -/
  runningPre : List NodeRef
  states : Std.ExtTreeMap NodeHash NodeState
  globals : Globals
  /-- Handler ticks run so far. -/
  tick : UInt64
  stream : RandomStream
  tracer : Tracer

namespace Blackboard

/-- A blackboard on which nothing has run yet. -/
def new (tree : TreeId) (agent seed : UInt64) (tracer : Tracer) : Blackboard :=
  { tree
    agent
    runningNow := []
    runningPre := []
    states := ∅
    globals := {}
    tick := 0
    stream := .ofSeed (deriveSeed seed agent tree.value)
    tracer }

def isRunning (board : Blackboard) (hash : NodeHash) : Bool :=
  match board.states[hash]? with
  | some state => state.running
  | none => false

/-- The state with which a node executes: the one on the blackboard, unless it
is missing or its shape does not fit the node's kind. -/
def stateFor (board : Blackboard) (tree : Tree) (node : Node) : NodeState :=
  match board.states[node.hash]? with
  | some state =>
    if state.kind.fits node.kind then state else .forNode tree node
  | none => .forNode tree node

def setState (board : Blackboard) (hash : NodeHash) (state : NodeState) :
    Blackboard :=
  { board with states := board.states.insert hash state }

/-- Changes the state with which a node executes. -/
def updateState (board : Blackboard) (tree : Tree) (node : Node)
    (change : NodeState → NodeState) : Blackboard :=
  board.setState node.hash (change (board.stateFor tree node))

/-- Seeds the state of a node if it is absent, or always with `override`.
State that is kept has its configuration refreshed. -/
def seedState (board : Blackboard) (tree : Tree) (node : Node)
    (override : Bool) : Blackboard :=
  if override then board.setState node.hash (.forNode tree node)
  else board.updateState tree node (·.syncConfig node)

/-- Forgets what was running and keeps node state otherwise. -/
def clearRunning (board : Blackboard) : Blackboard :=
  { board with
    runningNow := []
    runningPre := []
    states := board.states.map fun _ state => { state with running := false } }

/-- Drops the state of nodes that no tree of the forest registers. -/
def pruneOrphans (board : Blackboard) (forest : Forest) : Blackboard :=
  { board with
    states := board.states.filter fun hash _ => forest.registers hash
    runningNow := board.runningNow.filter fun ref => forest.registers ref.hash
    runningPre := board.runningPre.filter fun ref => forest.registers ref.hash }

/-- Number of states that pruning drops. -/
def orphanCount (board : Blackboard) (forest : Forest) : Nat :=
  board.states.size - (board.pruneOrphans forest).states.size

/-- Notes that a node returned `running` in this tick. -/
def noteRunning (board : Blackboard) (ref : NodeRef) : Blackboard :=
  if ref ∈ board.runningNow then board
  else { board with runningNow := board.runningNow ++ [ref] }

/-- The nodes that were running two ticks back and not in the last tick. -/
def notRevisited (board : Blackboard) : List NodeRef :=
  board.runningPre.filter fun ref => ref ∉ board.runningNow

/-- Counts a tick and turns the running nodes of the last tick into those of
the tick before. -/
def beginTick (board : Blackboard) : Blackboard :=
  { board with
    tick := board.tick + 1
    runningPre := board.runningNow
    runningNow := [] }

end Blackboard

end BehaviorTree
