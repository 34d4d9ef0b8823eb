import BehaviorTree.Agent
import BehaviorTree.Pass.Tick

/-!
# Handlers

A handler drives one agent through its tree: `setup` binds a blackboard, `tick`
advances it once per simulation step.
-/

namespace BehaviorTree

/-- `setup` could not bind a usable tree. -/
inductive ResolutionError where
  | noTree
  | unknownTree (selector : TreeSelector)
  | agentMismatch (tree expected found : String)
  | invalid (cause : ValidationError)
deriving DecidableEq

def ResolutionError.message : ResolutionError → String
  | noTree => "no tree given, the agent declares no default and no tree is bound yet"
  | unknownTree selector => "tree " ++ selector.text ++ " not found"
  | agentMismatch tree expected found =>
    "tree '" ++ tree ++ "' is restricted to agents of kind '" ++ expected ++
      "', got '" ++ found ++ "'"
  | invalid cause => "tree is invalid: " ++ cause.message

/-- `tick` was called on a handler that cannot run. -/
inductive TickError where
  | notSetUp
  | treeMissing (id : TreeId)
deriving DecidableEq

def TickError.message : TickError → String
  | notSetUp => "handler has no blackboard; call setup first"
  | treeMissing id => "bound tree " ++ id.text ++ " is no longer in the forest"

structure Handler (α : Type) where
  behaviors : Behaviors α
  config : HandlerConfig := {}
  blackboard : Option Blackboard := none

/-- What one handler tick did: its status, the agent afterwards and the pass. -/
structure TickReport (α : Type) where
  status : Status
  pass : Pass α

namespace Handler

variable {α : Type}

def isSetUp (handler : Handler α) : Bool := handler.blackboard.isSome

/-- The tree to which the blackboard is bound. -/
def tree (handler : Handler α) : Option TreeId :=
  handler.blackboard.map (·.tree)

/-- The tree to bind: the given one, else the agent's default, else the one
already bound. -/
def chooseTree [Agent α] (handler : Handler α) (forest : Forest) (agent : α)
    (tree : Option TreeSelector) : Except ResolutionError Tree :=
  match tree <|> Agent.defaultTree agent with
  | some selector =>
    match forest.select selector with
    | some tree => .ok tree
    | none => .error (.unknownTree selector)
  | none =>
    match handler.tree with
    | none => .error .noTree
    | some id =>
      match forest.get? id with
      | some tree => .ok tree
      | none => .error (.unknownTree (.byId id))

/-- A tree restricted to a kind of agents takes no others. -/
def checkKind [Agent α] (tree : Tree) (agent : α) : Except ResolutionError Unit :=
  match tree.agentKind with
  | none => .ok ()
  | some expected =>
    if expected = Agent.kind agent then .ok ()
    else .error (.agentMismatch tree.name expected (Agent.kind agent))

/-- Validates the trees of a walk, each where it is first met. -/
def validateTrees (forest : Forest) :
    List TreeId → List NodeRef → Except ResolutionError Unit
  | _, [] => .ok ()
  | checked, ref :: rest =>
    if ref.tree ∈ checked then validateTrees forest checked rest
    else
      match forest.get? ref.tree with
      | none => validateTrees forest (ref.tree :: checked) rest
      | some tree =>
        match tree.validate with
        | .error cause => .error (.invalid cause)
        | .ok () => validateTrees forest (ref.tree :: checked) rest

/-- The blackboard to go on with: the bound one when it serves the same tree and
agent and is not overridden, and else a new one that takes over its tracer. -/
def bindBlackboard (handler : Handler α) (tree : TreeId) (agent : UInt64)
    (override : Bool) : Blackboard :=
  match handler.blackboard with
  | none =>
    .new tree agent handler.config.seed
      (if handler.config.recordTrace then .recording else {})
  | some board =>
    if !override && board.tree = tree && board.agent = agent then
      board.clearRunning
    else .new tree agent handler.config.seed board.tracer

/-- Seeds the state of every node of a walk. -/
def seedStates (forest : Forest) (override : Bool) (walk : List NodeRef)
    (board : Blackboard) : Blackboard :=
  walk.foldl
    (fun board ref =>
      match forest.get? ref.tree with
      | none => board
      | some tree =>
        match tree.nodes[ref.hash]? with
        | none => board
        | some node => board.seedState tree node override)
    board

/-- A computation on a handler that may fail; the handler is part of the result
in either case. -/
abbrev SetupM (α β : Type) : Type := EStateM ResolutionError (Handler α) β

/-- Goes on with the value of a check that was passed. -/
def requireSetup {β : Type} : Except ResolutionError β → SetupM α β
  | .ok value => pure value
  | .error cause => throw cause

/-- Binds the blackboard to a tree.  Every tree that the agent can reach through
Transitions is validated first, and every node that it can reach gets its state
seeded. -/
def setup [Agent α] (forest : Forest) (agent : α) (tree : Option TreeSelector)
    (override : Bool) : SetupM α TreeId := do
  let tree ← requireSetup ((← get).chooseTree forest agent tree)
  requireSetup (checkKind tree agent)
  let walk := forest.walkFollowing tree.id
  requireSetup (validateTrees forest [] walk)
  modify fun handler =>
    let board := handler.bindBlackboard tree.id (Agent.stableId agent) override
    { handler with blackboard := some (seedStates forest override walk board) }
  return tree.id

/-- Runs a pass from the root of a tree: closes what was running and not
revisited, turns the running lists over and ticks the root. -/
def runPass (setting : Setting α) (fuel : Nat) (tree : Tree) (board : Blackboard)
    (agent : α) : Option (TickReport α) :=
  let start : Pass α := { agent, board := board.beginTick }
  let cleared := start.abandonEach setting board.notRevisited
  match PassM.tick setting fuel tree tree.rootNode cleared with
  | none => none
  | some (status, pass) => some { status, pass }

/-- One evaluation pass from the root of the bound tree.  There is no result
when the fuel runs out. -/
def tick (fuel : Nat) (forest : Forest) (handler : Handler α) (agent : α) :
    Option (Except TickError (TickReport α)) :=
  match handler.blackboard with
  | none => some (.error .notSetUp)
  | some board =>
    match forest.get? board.tree with
    | none => some (.error (.treeMissing board.tree))
    | some tree =>
      let setting := { forest, behaviors := handler.behaviors, config := handler.config }
      (runPass setting fuel tree board agent).map .ok

/-- The handler and the agent after a tick. -/
def afterTick (handler : Handler α) (agent : α) :
    Except TickError (TickReport α) → Handler α × α
  | .error _ => (handler, agent)
  | .ok report =>
    ({ handler with blackboard := some report.pass.board }, report.pass.agent)

/-- Ticks a handler, and returns the result with the handler and the agent
afterwards. -/
def step (fuel : Nat) (forest : Forest) (pair : Handler α × α) :
    Option (Except TickError Status × (Handler α × α)) :=
  (tick fuel forest pair.1 pair.2).map fun outcome =>
    (outcome.map (·.status), pair.1.afterTick pair.2 outcome)

/-- Ticks a batch of handlers in the order of their agents' ids; agents with
equal ids keep their order. -/
def stepAll [Agent α] (fuel : Nat) (forest : Forest)
    (batch : List (Handler α × α)) :
    Option (List (Except TickError Status × (Handler α × α))) :=
  (batch.mergeSort fun left right =>
    Agent.stableId left.2 ≤ Agent.stableId right.2).mapM (step fuel forest)

/-- Drops the blackboard and hands it out. -/
def teardown (handler : Handler α) : Option Blackboard × Handler α :=
  (handler.blackboard, { handler with blackboard := none })

end Handler

end BehaviorTree
