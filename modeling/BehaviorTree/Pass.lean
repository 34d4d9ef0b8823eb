import BehaviorTree.Behaviors
import BehaviorTree.Blackboard
import BehaviorTree.Draw

/-!
# Passes

A pass is one evaluation of a tree for one agent: everything that a handler tick
can change, and a journal of what it did to which node.  This module holds the
steps that a pass is made of.  Each is a total function; the recursion through
the tree is in `BehaviorTree.Pass.Tick`.
-/

namespace BehaviorTree

/-- What a pass does not change. -/
structure Setting (α : Type) where
  forest : Forest
  behaviors : Behaviors α
  config : HandlerConfig

/-- An entry of a pass's journal. -/
inductive Activity where
  /-- The tick of a node was within the step budget. -/
  | entered (node : NodeRef)
  /-- The tick of a node was beyond the step budget. -/
  | refused (node : NodeRef)
  | opened (node : NodeRef)
  /-- The update of a node came to a result. -/
  | finished (node : NodeRef) (status : Status)
  | closed (node : NodeRef)
  /-- A running node that was not revisited is about to be closed. -/
  | abandoned (node : NodeRef)
  /-- An action was run. -/
  | ran (action : String)
  /-- The state of a node was missing or had the shape of another kind. -/
  | misfit (node : NodeRef)
deriving DecidableEq

/-- Everything that one handler tick can change. -/
structure Pass (α : Type) where
  agent : α
  board : Blackboard
  /-- Node ticks taken so far, refused ones included. -/
  steps : Nat := 0
  /-- Transitions entered and not yet left. -/
  depth : Nat := 0
  /-- The step budget was exceeded and the fact has been recorded. -/
  exhausted : Bool := false
  journal : Array Activity := #[]

/-- Reference to a node of a tree. -/
def Tree.refTo (tree : Tree) (node : Node) : NodeRef := ⟨tree.id, node.hash⟩

/-- The node at a position among the children of another. -/
def Tree.childAt (tree : Tree) (node : Node) (index : Nat) : Option Node :=
  (node.children[index]?).bind fun hash => tree.nodes[hash]?

namespace Pass

variable {α : Type}

def note (pass : Pass α) (activity : Activity) : Pass α :=
  { pass with journal := pass.journal.push activity }

/-- Records an execution problem. -/
def addError (pass : Pass α) (message : String) : Pass α :=
  { pass with
    board := { pass.board with globals := pass.board.globals.addError message } }

def emit (pass : Pass α) (tag : String) (node : NodeHash) (detail : String) :
    Pass α :=
  let event := { tick := pass.board.tick, tag, node := some node, detail }
  { pass with
    board := { pass.board with tracer := pass.board.tracer.emit event } }

/-- Emits an event of a node's lifecycle if these are traced. -/
def emitLifecycle (pass : Pass α) (config : HandlerConfig) (tag : String)
    (node : Node) : Pass α :=
  if config.traceLifecycle then pass.emit tag node.hash node.name else pass

/-- Changes the state with which a node executes. -/
def updateState (pass : Pass α) (tree : Tree) (node : Node)
    (change : NodeState → NodeState) : Pass α :=
  { pass with board := pass.board.updateState tree node change }

/-- The state with which a node executes; it is on the blackboard from now on. -/
def ensureState (pass : Pass α) (tree : Tree) (node : Node) :
    NodeState × Pass α :=
  (pass.board.stateFor tree node, pass.updateState tree node id)

/-- Changes the kind-dependent part of a node's state, unless `change` finds
it to have another shape. -/
def updateKind (pass : Pass α) (tree : Tree) (node : Node)
    (change : KindState → Option KindState) : Pass α :=
  let (state, pass) := pass.ensureState tree node
  match change state.kind with
  | some kind => pass.updateState tree node fun state => { state with kind }
  | none => pass.note (.misfit (tree.refTo node))

/-- The message of an exceeded step budget. -/
def budgetMessage (budget : UInt64) (node : NodeHash) : String :=
  "step budget of " ++ budget.toNat.repr ++ " exhausted at node " ++ node.text

/-- Counts the tick of a node.  Beyond the budget the tick is refused, and the
first refusal of a pass is recorded as an execution problem. -/
def takeStep (pass : Pass α) (config : HandlerConfig) (ref : NodeRef) :
    Bool × Pass α :=
  let pass := { pass with steps := pass.steps + 1 }
  match config.maxStepsPerTick with
  | none => (true, pass.note (.entered ref))
  | some budget =>
    if pass.steps ≤ budget.toNat then (true, pass.note (.entered ref))
    else
      let pass := pass.note (.refused ref)
      if pass.exhausted then (false, pass)
      else
        (false,
          { pass.addError (budgetMessage budget ref.hash) with exhausted := true })

/-- Counts a tick on the node's state and tells whether it was running. -/
def countTick (pass : Pass α) (tree : Tree) (node : Node) : Bool × Pass α :=
  ((pass.board.stateFor tree node).running,
    pass.updateState tree node fun state => { state with ticks := state.ticks + 1 })

/-- The pool with which an activation of a Prob composite starts: every child
with its own weight on this blackboard, or else its static one. -/
def fullPool (tree : Tree) (weights : Std.ExtTreeMap NodeHash Float)
    (children : List NodeHash) : List (Nat × Float) :=
  children.mapIdx fun index child =>
    (index, (weights[child]?).getD (NodeState.staticWeight tree child))

/-- The kind-dependent part of the state at the start of an activation. -/
def openedKind (tree : Tree) (node : Node) : KindState → KindState
  | .prob weights _ _ => .prob weights (fullPool tree weights node.children) none
  | .parallel _ spec => .parallel (node.children.map fun _ => none) spec
  | kind => kind

/-- Starts an activation of a node. -/
def openNode (pass : Pass α) (config : HandlerConfig) (tree : Tree)
    (node : Node) : Pass α :=
  ((pass.note (.opened (tree.refTo node))).emitLifecycle config "bt.open" node).updateState
    tree node fun state =>
      let state := state.syncConfig node
      { state with kind := openedKind tree node state.kind }

/-- The kind-dependent part of the state after an activation. -/
def closedKind : KindState → KindState
  | .mem _ => .mem 0
  | .prob weights _ _ => .prob weights [] none
  | .parallel _ spec => .parallel [] spec
  | kind => kind

/-- Ends an activation of a node. -/
def closeNode (pass : Pass α) (config : HandlerConfig) (tree : Tree)
    (node : Node) : Pass α :=
  ((pass.note (.closed (tree.refTo node))).updateState tree node fun state =>
    { state with running := false, kind := closedKind state.kind }).emitLifecycle
      config "bt.close" node

/-- Ends the activation of a node that was running and was not revisited. -/
def abandonNode (pass : Pass α) (config : HandlerConfig) (tree : Tree)
    (node : Node) : Pass α :=
  ((pass.note (.abandoned (tree.refTo node))).emitLifecycle config "bt.abandon"
    node).closeNode config tree node

/-- Keeps the activation of a node going until the next tick. -/
def keepRunning (pass : Pass α) (tree : Tree) (node : Node) : Pass α :=
  let pass := pass.updateState tree node fun state => { state with running := true }
  { pass with board := pass.board.noteRunning (tree.refTo node) }

/-- Closes the nodes of a list that are still flagged as running. -/
def abandonEach (setting : Setting α) : List NodeRef → Pass α → Pass α
  | [], pass => pass
  | ref :: rest, pass =>
    let abandoned :=
      match setting.forest.get? ref.tree with
      | none => pass
      | some tree =>
        match tree.nodes[ref.hash]? with
        | none => pass
        | some node =>
          if pass.board.isRunning ref.hash then
            pass.abandonNode setting.config tree node
          else pass
    abandonEach setting rest abandoned

/-- The child that a Prob composite ticks next: the one that was running, or
else a drawn one. -/
def nextProbChild (pass : Pass α) (tree : Tree) (node : Node) :
    Option Nat × Pass α :=
  match pass.board.states[node.hash]? with
  | some state =>
    match state.kind with
    | .prob weights available (some index) =>
      (some index,
        { pass with
          board := pass.board.setState node.hash
            { state with kind := .prob weights available none } })
    | .prob weights available none =>
      match draw available pass.board.stream with
      | none => (none, pass)
      | some drawn =>
        (some drawn.index,
          { pass with
            board :=
              { pass.board.setState node.hash
                  { state with kind := .prob weights drawn.pool none } with
                stream := drawn.stream } })
    | _ => (none, pass.note (.misfit (tree.refTo node)))
  | none => (none, pass.note (.misfit (tree.refTo node)))

/-- The results that a Parallel has gathered in this activation. -/
def parallelResults (pass : Pass α) (node : Node) :
    Option (List (Option Status)) :=
  match pass.board.states[node.hash]? with
  | some state =>
    match state.kind with
    | .parallel results _ => some results
    | _ => none
  | none => none

/-- Records the result of a child of a Parallel and returns all results. -/
def recordResult (pass : Pass α) (tree : Tree) (node : Node) (index : Nat)
    (status : Status) : List (Option Status) × Pass α :=
  match pass.board.states[node.hash]? with
  | some state =>
    match state.kind with
    | .parallel results spec =>
      let results := results.set index (some status)
      (results,
        { pass with
          board := pass.board.setState node.hash
            { state with kind := .parallel results spec } })
    | _ => ([], pass.note (.misfit (tree.refTo node)))
  | none => ([], pass.note (.misfit (tree.refTo node)))

/-- The list cut or filled up to `count` results. -/
def resizeResults (results : List (Option Status)) (count : Nat) :
    List (Option Status) :=
  results.take count ++ List.replicate (count - results.length) none

/-- Makes room for the results of all children of a Parallel and returns the
configuration in force. -/
def prepareParallel (pass : Pass α) (tree : Tree) (node : Node) :
    ParallelSpec × Pass α :=
  let (state, pass) := pass.ensureState tree node
  match state.kind with
  | .parallel results spec =>
    (spec,
      pass.updateState tree node fun state =>
        { state with
          kind := .parallel (resizeResults results node.children.length) spec })
  | _ => ({}, pass.note (.misfit (tree.refTo node)))

end Pass

/-- What the result of a child means for a Parallel: its own result, or to go
on.  An error counts first, then the designated child, then the thresholds. -/
def ParallelSpec.verdict (spec : ParallelSpec) (index : Nat) (status : Status)
    (results : List (Option Status)) : Option Status :=
  let tally (wanted : Status) := results.count (some wanted)
  let met (required : Option UInt32) (count : Nat) :=
    required.any fun threshold => threshold.toNat ≤ count
  if status = .error then some .error
  else if spec.primaryChild.map (·.toNat) = some index ∧ status.isTerminal then
    some status
  else if met spec.requiredSuccesses (tally .success) then some .success
  else if met spec.requiredFailures (tally .failure) then some .failure
  else none

/-- The result of a Parallel whose children have all been visited. -/
def ParallelSpec.conclusion (spec : ParallelSpec)
    (results : List (Option Status)) : Status :=
  if some .running ∈ results then .running else .ofBool spec.defaultSuccess

end BehaviorTree
