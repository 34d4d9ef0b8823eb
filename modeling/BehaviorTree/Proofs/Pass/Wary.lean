import BehaviorTree.Pass.Tick

/-!
# Wary ticks

Kinds may change between ticks while states stay, so a node can come with a
state of another shape, or with none.  Only the begin of a tick of the node, and
of its abandonment, mends that.

A wary tick looks before every other access: where the state of the node is
missing or does not fit, it notes a misfit and gives up with an error.  Behind
such a look no branch for a state of another shape can be taken.
Each function here is the one of the same name in `BehaviorTree.Pass.Tick`, with
the looks.
-/

namespace BehaviorTree

variable {α β : Type}

/-- The state of a node is there and has the shape with which it executes. -/
def Blackboard.fits (board : Blackboard) (node : Node) : Bool :=
  board.states[node.hash]?.any (·.kind.fits node.kind)

namespace PassM

namespace Wary

/-- Goes on if the state of the node fits, and else notes a misfit. -/
def whenFit (tree : Tree) (node : Node) (otherwise : β) (run : PassM α β) :
    PassM α β := do
  if (← get).board.fits node then run
  else
    modify (·.note (.misfit (tree.refTo node)))
    return otherwise

def scanMem (tickAt : Nat → PassM α Status) (tree : Tree) (node : Node)
    (goOn : Status) : List Nat → PassM α Status
  | [] => return goOn
  | index :: rest => do
    let status ← tickAt index
    if status = .running then
      whenFit tree node .error do
        recordMem tree node index
        return status
    else if status = goOn then scanMem tickAt tree node goOn rest
    else return status

def resumeMem (visit : Visit α) (tree : Tree) (node : Node) (goOn : Status) :
    PassM α Status :=
  whenFit tree node .error do
    match (← modifyGet (·.ensureState tree node)).kind with
    | .mem start =>
      scanMem (tickChild visit tree node) tree node goOn
        (List.range' start (node.children.length - start))
    | _ =>
      modify (·.note (.misfit (tree.refTo node)))
      return .error

def drawLoop (tickAt : Nat → PassM α Status) (tree : Tree) (node : Node)
    (goOn : Status) : Nat → PassM α Status
  | 0 => outOfFuel
  | fuel + 1 =>
    whenFit tree node .error do
      match ← modifyGet (·.nextProbChild tree node) with
      | none => return goOn
      | some index =>
        let status ← tickAt index
        if status = .running then
          whenFit tree node .error do
            recordProb tree node index
            return status
        else if status = goOn then drawLoop tickAt tree node goOn fuel
        else return status

def scanProb (fuel : Nat) (visit : Visit α) (tree : Tree) (node : Node)
    (goOn : Status) : PassM α Status :=
  whenFit tree node .error do
    let _ ← modifyGet (·.ensureState tree node)
    drawLoop (tickChild visit tree node) tree node goOn fuel

def visitParallel (visit : Visit α) (tree : Tree) (node : Node)
    (spec : ParallelSpec) : List Nat → PassM α (Option Status)
  | [] => return none
  | index :: rest =>
    whenFit tree node (some .error) do
      if isSettled ((← get).parallelResults node) index then
        visitParallel visit tree node spec rest
      else
        match tree.childAt node index with
        | none => return some (← missingChild node index)
        | some child =>
          let status ← visit tree child
          whenFit tree node (some .error) do
            let results ← modifyGet (·.recordResult tree node index status)
            match spec.verdict index status results with
            | some verdict => return some verdict
            | none => visitParallel visit tree node spec rest

def parallel (visit : Visit α) (tree : Tree) (node : Node) : PassM α Status :=
  whenFit tree node .error do
    let spec ← modifyGet (·.prepareParallel tree node)
    match ← visitParallel visit tree node spec
        (List.range node.children.length) with
    | some verdict => return verdict
    | none =>
      whenFit tree node .error do
        return spec.conclusion (((← get).parallelResults node).getD [])

def repeater (visit : Visit α) (tree : Tree) (node : Node) : PassM α Status :=
  whenFit tree node .error do
    match (← modifyGet (·.ensureState tree node)).kind with
    | .repeater repeats count =>
      if repeats ≤ count then
        whenFit tree node .error do
          setRepeatCount tree node fun _ => 0
          return .success
      else
        let status ← tickChild visit tree node 0
        if status = .success ∨ status = .failure then
          whenFit tree node .error do
            setRepeatCount tree node (· + 1)
            return .running
        else return status
    | _ =>
      modify (·.note (.misfit (tree.refTo node)))
      return .error

def limiter (visit : Visit α) (tree : Tree) (node : Node) : PassM α Status :=
  whenFit tree node .error do
    match (← modifyGet (·.ensureState tree node)).kind with
    | .limiter limit remaining =>
      if remaining = 0 then return .failure
      else
        whenFit tree node .error do
          modify (·.updateState tree node fun state =>
            { state with kind := .limiter limit (remaining - 1) })
          delegate visit tree node id
    | _ =>
      modify (·.note (.misfit (tree.refTo node)))
      return .error

/-- The update of a node; kinds without a state of their own have no access to
look before. -/
def update (setting : Setting α) (fuel : Nat) (visit : Visit α) (tree : Tree)
    (node : Node) : PassM α Status :=
  match node.kind with
  | .memSequence => resumeMem visit tree node .success
  | .memSelector => resumeMem visit tree node .failure
  | .probSequence => scanProb fuel visit tree node .success
  | .probSelector => scanProb fuel visit tree node .failure
  | .parallel _ => parallel visit tree node
  | .repeater _ => repeater visit tree node
  | .limiter _ => limiter visit tree node
  | _ => PassM.update setting fuel visit tree node

def activate (setting : Setting α) (fuel : Nat) (visit : Visit α) (tree : Tree)
    (node : Node) : PassM α Status := do
  let wasRunning ← modifyGet (·.countTick tree node)
  whenFit tree node .error do
    if !wasRunning then modify (·.openNode setting.config tree node)
    let status ← update setting fuel visit tree node
    whenFit tree node .error do
      modify (·.note (.finished (tree.refTo node) status))
      if status = .running then modify (·.keepRunning tree node)
      else modify (·.closeNode setting.config tree node)
      return status

def tick (setting : Setting α) : Nat → Visit α
  | 0 => fun _ _ => outOfFuel
  | fuel + 1 => fun tree node => do
    if ← modifyGet (·.takeStep setting.config (tree.refTo node)) then
      activate setting fuel (tick setting fuel) tree node
    else return .error

/-- Closes the nodes of a list that are still flagged as running.  Closing mends
the state first. -/
def abandonEach (setting : Setting α) : List NodeRef → Pass α → Pass α
  | [], pass => pass
  | ref :: rest, pass =>
    let abandoned :=
      match setting.forest.get? ref.tree with
      | none => pass
      | some tree =>
        match tree.nodes[ref.hash]? with
        | none => pass
        | some node =>
          if pass.board.isRunning ref.hash then
            let mended := pass.updateState tree node id
            if mended.board.fits node then
              mended.abandonNode setting.config tree node
            else mended.note (.misfit ref)
          else pass
    abandonEach setting rest abandoned

end Wary

end PassM

end BehaviorTree
