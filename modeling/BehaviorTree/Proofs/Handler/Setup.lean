import BehaviorTree.Handler
import BehaviorTree.Proofs.Pass.Steps

/-!
# Boards after setup

Whatever a handler was bound to before, a successful setup leaves it with a
blackboard on which nothing is running.
-/

namespace BehaviorTree

/-- Nothing is running. -/
structure Blackboard.Idle (board : Blackboard) : Prop where
  runningNow : board.runningNow = []
  runningPre : board.runningPre = []
  unflagged : ∀ {hash : NodeHash} {state : NodeState},
    board.states[hash]? = some state → state.running = false

/-- What seeding one node keeps, seeding a walk does. -/
theorem Handler.seedStates_keeps (holds : Blackboard → Prop) {override : Bool}
    (seeds : ∀ {board : Blackboard}, holds board → ∀ (tree : Tree) (node : Node),
      holds (board.seedState tree node override))
    {forest : Forest} {walk : List NodeRef} {board : Blackboard}
    (held : holds board) : holds (seedStates forest override walk board) := by
  rw [seedStates]
  induction walk generalizing board with
  | nil => exact held
  | cons ref rest induction =>
      rw [List.foldl_cons]
      apply induction
      cases forest.get? ref.tree with
      | none => exact held
      | some tree =>
          dsimp only
          cases tree.nodes[ref.hash]? with
          | none => exact held
          | some node => exact seeds held tree node

namespace Blackboard

theorem idle_new (tree : TreeId) (agent seed : UInt64) (tracer : Tracer) :
    (new tree agent seed tracer).Idle where
  runningNow := rfl
  runningPre := rfl
  unflagged present := by
    simp [new] at present

theorem idle_clearRunning (board : Blackboard) : board.clearRunning.Idle where
  runningNow := rfl
  runningPre := rfl
  unflagged present := by
    simp only [clearRunning, Std.ExtTreeMap.getElem?_map,
      Option.map_eq_some_iff] at present
    obtain ⟨_, _, rfl⟩ := present
    rfl

namespace Idle

variable {board : Blackboard} (idle : board.Idle)
include idle

theorem setState (hash : NodeHash) {state : NodeState}
    (unflagged : state.running = false) : (board.setState hash state).Idle where
  runningNow := idle.runningNow
  runningPre := idle.runningPre
  unflagged {other found} present := by
    rw [states_setState] at present
    split at present
    · cases present
      exact unflagged
    · exact idle.unflagged present

theorem isRunning (hash : NodeHash) : board.isRunning hash = false := by
  rw [Blackboard.isRunning]
  cases present : board.states[hash]? with
  | none => rfl
  | some state => exact idle.unflagged present

theorem running_stateFor (tree : Tree) (node : Node) :
    (board.stateFor tree node).running = false := by
  rw [stateFor]
  cases present : board.states[node.hash]? with
  | none => rfl
  | some state =>
      dsimp only
      split
      · exact idle.unflagged present
      · rfl

theorem seedState (tree : Tree) (node : Node) (override : Bool) :
    (board.seedState tree node override).Idle := by
  rw [Blackboard.seedState]
  split
  · exact idle.setState _ rfl
  · exact idle.setState _ (idle.running_stateFor tree node)

theorem seedStates (forest : Forest) (override : Bool) (walk : List NodeRef) :
    (Handler.seedStates forest override walk board).Idle :=
  Handler.seedStates_keeps Idle
    (fun idle tree node => idle.seedState tree node override) idle

end Idle

end Blackboard

namespace Handler

variable {α : Type}

theorem idle_bindBlackboard (previous : Handler α) (tree : TreeId)
    (agent : UInt64) (override : Bool) :
    (previous.bindBlackboard tree agent override).Idle := by
  rw [bindBlackboard]
  cases previous.blackboard with
  | none => exact Blackboard.idle_new _ _ _ _
  | some board =>
      dsimp only
      split
      · exact board.idle_clearRunning
      · exact Blackboard.idle_new _ _ _ _

/-- The tree to bind, after all checks. -/
def approve [Agent α] (handler : Handler α) (forest : Forest) (agent : α)
    (selector : Option TreeSelector) : Except ResolutionError Tree := do
  let tree ← handler.chooseTree forest agent selector
  checkKind tree agent
  validateTrees forest [] (forest.walkFollowing tree.id)
  return tree

/-- The blackboard with which setup leaves a handler. -/
def boundBoard [Agent α] (handler : Handler α) (forest : Forest) (tree : Tree)
    (agent : α) (override : Bool) : Blackboard :=
  seedStates forest override (forest.walkFollowing tree.id)
    (handler.bindBlackboard tree.id (Agent.stableId agent) override)

theorem SetupM.get_bind {β : Type} (next : Handler α → SetupM α β)
    (handler : Handler α) :
    (get >>= next : SetupM α β).run handler = (next handler).run handler :=
  rfl

/-- The checks come before the handler is written to. -/
theorem setup_eq [Agent α] (forest : Forest) (agent : α)
    (selector : Option TreeSelector) (override : Bool) (handler : Handler α) :
    (setup forest agent selector override).run handler =
      match handler.approve forest agent selector with
      | .error cause => .error cause handler
      | .ok tree =>
        .ok tree.id
          { handler with
            blackboard := some (handler.boundBoard forest tree agent override) } := by
  rw [setup, SetupM.get_bind, approve]
  cases handler.chooseTree forest agent selector with
  | error cause => rfl
  | ok tree =>
      simp only [EStateM.run, bind, EStateM.bind, requireSetup, pure,
        EStateM.pure, Except.bind]
      cases checkKind tree agent with
      | error cause => rfl
      | ok =>
          dsimp only
          cases validateTrees forest [] (forest.walkFollowing tree.id) with
          | error cause => rfl
          | ok => rfl

/-- The value of a computation that does not fail, and the handler then. -/
def SetupM.outcome {β : Type} :
    EStateM.Result ResolutionError (Handler α) β → Option (β × Handler α)
  | .ok value handler => some (value, handler)
  | .error _ _ => none

theorem SetupM.outcome_eq_some_iff {β : Type}
    {result : EStateM.Result ResolutionError (Handler α) β} {value : β}
    {handler : Handler α} :
    outcome result = some (value, handler) ↔ result = .ok value handler := by
  cases result <;> simp [outcome]

theorem idle_boundBoard [Agent α] (handler : Handler α) (forest : Forest)
    (tree : Tree) (agent : α) (override : Bool) :
    (handler.boundBoard forest tree agent override).Idle :=
  (handler.idle_bindBlackboard _ _ _).seedStates forest override _

theorem idle_of_setup [Agent α] {forest : Forest} {agent : α}
    {selector : Option TreeSelector} {override : Bool} {id : TreeId}
    {previous handler : Handler α}
    (bound : (setup forest agent selector override).run previous =
      .ok id handler) :
    ∃ board, handler.blackboard = some board ∧ board.Idle := by
  rw [setup_eq] at bound
  split at bound
  · cases bound
  · cases bound
    exact ⟨_, rfl, previous.idle_boundBoard _ _ _ _⟩

end Handler

end BehaviorTree
