import BehaviorTree.Pass

/-!
# Ticking nodes

Execution semantics of every kind of node.  A tick opens the node unless it is
already running, updates it, and then either keeps it running or closes it.

A Transition may lead back into a tree that is being ticked, and then a
probabilistic composite can be entered again while it is drawing, so nothing in
the trees bounds a pass.  The recursion therefore takes fuel; a pass that runs
out of it has no result.
-/

namespace BehaviorTree

/-- A computation on a pass that may run out of fuel. -/
abbrev PassM (α β : Type) : Type := StateT (Pass α) Option β

namespace PassM

variable {α : Type}

def outOfFuel {β : Type} : PassM α β := fun _ => none

/-- Records an execution problem and yields `error`. -/
def fail (message : String) : PassM α Status := do
  modify (·.addError message)
  return .error

def missingChild (node : Node) (index : Nat) : PassM α Status :=
  fail (node.kind.label ++ " '" ++ node.name ++ "' has no child at " ++ index.repr)

/-- How a node of some tree is ticked. -/
abbrev Visit (α : Type) : Type := Tree → Node → PassM α Status

/-- Ticks the child at a position. -/
def tickChild (visit : Visit α) (tree : Tree) (node : Node) (index : Nat) :
    PassM α Status :=
  match tree.childAt node index with
  | some child => visit tree child
  | none => missingChild node index

/-- Asks a predicate; an unknown one is an execution problem. -/
def ask (setting : Setting α) (node : Node) (predicate : String) :
    PassM α (Option Bool) := do
  let pass ← get
  match setting.behaviors.check predicate pass.agent pass.board.globals with
  | some (answer, agent) =>
    set { pass with agent }
    return some answer
  | none =>
    let _ ← fail
      ("unknown condition '" ++ predicate ++ "' at node '" ++ node.name ++ "'")
    return none

/-- Ticks the listed children until one does not give `goOn`. -/
def scan (tickAt : Nat → PassM α Status) (goOn : Status) :
    List Nat → PassM α Status
  | [] => return goOn
  | index :: rest => do
    let status ← tickAt index
    if status = goOn then scan tickAt goOn rest else return status

/-- Scans like `scan`, and records the child that is running. -/
def scanMem (tickAt : Nat → PassM α Status) (record : Nat → PassM α Unit)
    (goOn : Status) : List Nat → PassM α Status
  | [] => return goOn
  | index :: rest => do
    let status ← tickAt index
    if status = .running then
      record index
      return status
    else if status = goOn then scanMem tickAt record goOn rest
    else return status

/-- Records the running child of a Mem composite. -/
def recordMem (tree : Tree) (node : Node) (index : Nat) : PassM α Unit :=
  modify (·.updateKind tree node fun
    | .mem _ => some (.mem index)
    | _ => none)

/-- Mem composites resume at the child that was running last. -/
def resumeMem (visit : Visit α) (tree : Tree) (node : Node) (goOn : Status) :
    PassM α Status := do
  let state ← modifyGet (·.ensureState tree node)
  let start ← match state.kind with
    | .mem index => pure index
    | _ => do
      modify (·.note (.misfit (tree.refTo node)))
      pure 0
  scanMem (tickChild visit tree node) (recordMem tree node) goOn
    (List.range' start (node.children.length - start))

/-- Records the running child of a Prob composite. -/
def recordProb (tree : Tree) (node : Node) (index : Nat) : PassM α Unit :=
  modify (·.updateKind tree node fun
    | .prob weights available _ => some (.prob weights available (some index))
    | _ => none)

/-- Draws children without replacement until one does not give `goOn`, in at
most `fuel` draws. -/
def drawLoop (tickAt : Nat → PassM α Status) (tree : Tree) (node : Node)
    (goOn : Status) : Nat → PassM α Status
  | 0 => outOfFuel
  | fuel + 1 => do
    match ← modifyGet (·.nextProbChild tree node) with
    | none => return goOn
    | some index =>
      let status ← tickAt index
      if status = .running then
        recordProb tree node index
        return status
      else if status = goOn then drawLoop tickAt tree node goOn fuel
      else return status

def scanProb (fuel : Nat) (visit : Visit α) (tree : Tree) (node : Node)
    (goOn : Status) : PassM α Status := do
  let _ ← modifyGet (·.ensureState tree node)
  drawLoop (tickChild visit tree node) tree node goOn fuel

/-- `true` if a Parallel already has a terminal result of the child. -/
def isSettled (results : Option (List (Option Status))) (index : Nat) : Bool :=
  match results.bind (·[index]?) with
  | some (some status) => status.isTerminal
  | _ => false

/-- Visits the listed children of a Parallel, without those that are settled,
until a result decides the Parallel. -/
def visitParallel (visit : Visit α) (tree : Tree) (node : Node)
    (spec : ParallelSpec) : List Nat → PassM α (Option Status)
  | [] => return none
  | index :: rest => do
    if isSettled ((← get).parallelResults node) index then
      visitParallel visit tree node spec rest
    else
      match tree.childAt node index with
      | none => return some (← missingChild node index)
      | some child =>
        let status ← visit tree child
        let results ← modifyGet (·.recordResult tree node index status)
        match spec.verdict index status results with
        | some verdict => return some verdict
        | none => visitParallel visit tree node spec rest

def parallel (visit : Visit α) (tree : Tree) (node : Node) : PassM α Status := do
  let spec ← modifyGet (·.prepareParallel tree node)
  match ← visitParallel visit tree node spec (List.range node.children.length) with
  | some verdict => return verdict
  | none => return spec.conclusion (((← get).parallelResults node).getD [])

/-- Passes the child's result on, changed by `change`. -/
def delegate (visit : Visit α) (tree : Tree) (node : Node)
    (change : Status → Status) : PassM α Status := do
  match tree.childAt node 0 with
  | some child => return change (← visit tree child)
  | none => missingChild node 0

/-- Sets the count of a Repeater. -/
def setRepeatCount (tree : Tree) (node : Node) (change : UInt32 → UInt32) :
    PassM α Unit :=
  modify (·.updateKind tree node fun
    | .repeater repeats count => some (.repeater repeats (change count))
    | _ => none)

/-- Counts finished runs of the child.  Once the configured number is reached
the next tick succeeds without touching the child and counting starts over. -/
def repeater (visit : Visit α) (tree : Tree) (node : Node) : PassM α Status := do
  let state ← modifyGet (·.ensureState tree node)
  let (repeats, count) ← match state.kind with
    | .repeater repeats count => pure (repeats, count)
    | _ => do
      modify (·.note (.misfit (tree.refTo node)))
      pure (0, 0)
  if repeats ≤ count then
    setRepeatCount tree node fun _ => 0
    return .success
  else
    let status ← tickChild visit tree node 0
    if status = .success ∨ status = .failure then
      setRepeatCount tree node (· + 1)
      return .running
    else return status

/-- Fails once the uses are spent; otherwise spends one and delegates. -/
def limiter (visit : Visit α) (tree : Tree) (node : Node) : PassM α Status := do
  let state ← modifyGet (·.ensureState tree node)
  match state.kind with
  | .limiter limit remaining =>
    if remaining = 0 then return .failure
    else
      modify (·.updateState tree node fun state =>
        { state with kind := .limiter limit (remaining - 1) })
      delegate visit tree node id
  | _ =>
    modify (·.note (.misfit (tree.refTo node)))
    return .failure

/-- Waits while any of the resources is taken. -/
def allocator (visit : Visit α) (tree : Tree) (node : Node)
    (resources : List String) : PassM α Status := do
  let globals := (← get).board.globals
  if resources.any globals.isTaken then return .running
  else delegate visit tree node id

def verifier (setting : Setting α) (visit : Visit α) (tree : Tree) (node : Node)
    (predicate : String) : PassM α Status := do
  match ← ask setting node predicate with
  | some true => delegate visit tree node id
  | some false => return .failure
  | none => return .error

def condition (setting : Setting α) (node : Node) (predicate : String) :
    PassM α Status := do
  match ← ask setting node predicate with
  | some answer => return .ofBool answer
  | none => return .error

def command (setting : Setting α) (node : Node) (action : String) :
    PassM α Status := do
  let pass ← get
  match setting.behaviors.run action pass.agent pass.board.globals with
  | some (agent, globals) =>
    set ({ pass with agent, board := { pass.board with globals } }.note (.ran action))
    return .success
  | none =>
    fail ("unknown command '" ++ action ++ "' at node '" ++ node.name ++ "'")

/-- Hands over to the root of the target tree, one level deeper. -/
def transition (setting : Setting α) (visit : Visit α) (node : Node)
    (target : Option TreeSelector) : PassM α Status := do
  match target with
  | none => fail ("transition '" ++ node.name ++ "' has no target tree")
  | some selector =>
    match setting.forest.select selector with
    | none =>
      fail ("transition '" ++ node.name ++ "' targets missing tree " ++ selector.text)
    | some tree =>
      if setting.config.maxTransitionDepth.toNat ≤ (← get).depth then
        fail ("transition depth " ++ setting.config.maxTransitionDepth.toNat.repr ++
          " exceeded at '" ++ node.name ++ "'")
      else
        modify fun pass => { pass with depth := pass.depth + 1 }
        let status ← visit tree tree.rootNode
        modify fun pass => { pass with depth := pass.depth - 1 }
        return status

/-- Ticks the child of a tree's root. -/
def rootNode (visit : Visit α) (tree : Tree) (node : Node) : PassM α Status :=
  match tree.childAt node 0 with
  | some child => visit tree child
  | none => fail ("root of tree '" ++ tree.name ++ "' has no child")

/-- Evaluates an open node.  Its children are ticked by `visit`. -/
def update (setting : Setting α) (fuel : Nat) (visit : Visit α) (tree : Tree)
    (node : Node) : PassM α Status :=
  let indices := List.range node.children.length
  match node.kind with
  | .root => rootNode visit tree node
  | .sequence => scan (tickChild visit tree node) .success indices
  | .selector => scan (tickChild visit tree node) .failure indices
  | .memSequence => resumeMem visit tree node .success
  | .memSelector => resumeMem visit tree node .failure
  | .probSequence => scanProb fuel visit tree node .success
  | .probSelector => scanProb fuel visit tree node .failure
  | .parallel _ => parallel visit tree node
  | .inverter => delegate visit tree node .invert
  | .succeeder => delegate visit tree node .succeed
  | .failer => delegate visit tree node .fail
  | .repeater _ => repeater visit tree node
  | .limiter _ => limiter visit tree node
  | .allocator resources => allocator visit tree node resources
  | .verifier predicate => verifier setting visit tree node predicate
  | .echoDecorator message => do
    modify (·.emit "bt.echo" node.hash message)
    delegate visit tree node id
  | .condition predicate => condition setting node predicate
  | .command action => command setting node action
  | .transition target => transition setting visit node target
  | .echoLeaf message succeed => do
    modify (·.emit "bt.echo" node.hash message)
    return .ofBool succeed

/-- Opens a node unless it is running, updates it, and closes it or keeps it
running. -/
def activate (setting : Setting α) (fuel : Nat) (visit : Visit α) (tree : Tree)
    (node : Node) : PassM α Status := do
  let wasRunning ← modifyGet (·.countTick tree node)
  if !wasRunning then modify (·.openNode setting.config tree node)
  let status ← update setting fuel visit tree node
  modify (·.note (.finished (tree.refTo node) status))
  if status = .running then modify (·.keepRunning tree node)
  else modify (·.closeNode setting.config tree node)
  return status

/-- Ticks a node, if the step budget allows. -/
def tick (setting : Setting α) : Nat → Visit α
  | 0 => fun _ _ => outOfFuel
  | fuel + 1 => fun tree node => do
    if ← modifyGet (·.takeStep setting.config (tree.refTo node)) then
      activate setting fuel (tick setting fuel) tree node
    else return .error

end PassM

end BehaviorTree
