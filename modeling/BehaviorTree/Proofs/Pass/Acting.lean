import Mathlib.Logic.Relation
import BehaviorTree.Proofs.Pass.Flow

/-!
# What updates do on their own

Between the ticks of other nodes an update moves: it reads and writes the state
of its node.  It may also ask a predicate or run an action.  Moves touch neither
the agent nor the globals, so both change by the calls of behaviours alone.

An update that cannot go on complains.  A `Fault` is a child that is not there;
a `Mistake` is anything that a tree without faults can still run into.
-/

namespace BehaviorTree

/-- A call of a behaviour. -/
inductive Call where
  | ask (predicate : String)
  | run (action : String)
deriving DecidableEq

namespace Behaviors

section Performing

variable {α : Type} (behaviors : Behaviors α)

/-- Calls in the given order lead from an agent with its globals to another.  Each
goes to the predicate or to the action that is registered under its name. -/
inductive Performs : List Call → α × Globals → α × Globals → Prop where
  | done {pair : α × Globals} : Performs [] pair pair
  | ask {predicate : String} {condition : ConditionFn α} {agent : α}
      {globals : Globals} {rest : List Call} {after : α × Globals} :
      behaviors.conditions[predicate]? = some condition →
      Performs rest ((condition agent globals).2, globals) after →
      Performs (.ask predicate :: rest) (agent, globals) after
  | run {action : String} {command : CommandFn α} {agent : α} {globals : Globals}
      {rest : List Call} {after : α × Globals} :
      behaviors.commands[action]? = some command →
      Performs rest (command agent globals) after →
      Performs (.run action :: rest) (agent, globals) after

/-- No action touches the recorded execution problems. -/
def LeavesErrors : Prop :=
  ∀ (action : String) (command : CommandFn α),
    behaviors.commands[action]? = some command →
    ∀ agent globals, (command agent globals).2.errors = globals.errors

end Performing

variable {α : Type} {behaviors : Behaviors α}

namespace Performs

theorem append {calls others : List Call} {before middle after : α × Globals}
    (first : behaviors.Performs calls before middle)
    (second : behaviors.Performs others middle after) :
    behaviors.Performs (calls ++ others) before after := by
  induction first with
  | done => exact second
  | ask registered _ induction => exact .ask registered (induction second)
  | run registered _ induction => exact .run registered (induction second)

theorem of_check {predicate : String} {agent next : α} {globals : Globals}
    {answer : Bool}
    (checked : behaviors.check predicate agent globals = some (answer, next)) :
    behaviors.Performs [.ask predicate] (agent, globals) (next, globals) := by
  obtain ⟨condition, registered, answered⟩ := Option.map_eq_some_iff.mp checked
  refine .ask registered ?_
  rw [answered]
  exact .done

theorem of_run {action : String} {agent : α} {globals : Globals}
    {after : α × Globals}
    (ran : behaviors.run action agent globals = some after) :
    behaviors.Performs [.run action] (agent, globals) after := by
  obtain ⟨command, registered, rfl⟩ := Option.map_eq_some_iff.mp ran
  exact .run registered .done

theorem same {γ : Type} (view : α × Globals → γ)
    (asks : ∀ {predicate : String} {condition : ConditionFn α},
      behaviors.conditions[predicate]? = some condition → ∀ agent globals,
      view ((condition agent globals).2, globals) = view (agent, globals))
    (runs : ∀ {action : String} {command : CommandFn α},
      behaviors.commands[action]? = some command → ∀ agent globals,
      view (command agent globals) = view (agent, globals))
    {calls : List Call} {before after : α × Globals}
    (performs : behaviors.Performs calls before after) : view after = view before := by
  induction performs with
  | done => rfl
  | ask registered _ induction => rw [induction, asks registered]
  | run registered _ induction => rw [induction, runs registered]

end Performs

theorem LeavesErrors.withCommand (leaves : behaviors.LeavesErrors) (name : String)
    {command : CommandFn α}
    (keeps : ∀ agent globals, (command agent globals).2.errors = globals.errors) :
    (behaviors.withCommand name command).LeavesErrors := by
  intro action other registered
  rw [Behaviors.withCommand, Std.ExtTreeMap.getElem?_insert] at registered
  split at registered
  · obtain rfl := Option.some.inj registered
    exact keeps
  · exact leaves action other registered

theorem LeavesErrors.performs (leaves : behaviors.LeavesErrors) {calls : List Call}
    {before after : α × Globals}
    (performs : behaviors.Performs calls before after) :
    after.2.errors = before.2.errors :=
  performs.same (fun pair => pair.2.errors) (fun _ _ _ => rfl)
    (fun registered => leaves _ _ registered)

end Behaviors

/-- The actions among some calls. -/
def Call.actions : List Call → List String
  | [] => []
  | .ask _ :: rest => actions rest
  | .run action :: rest => action :: actions rest

theorem Call.actions_append (first second : List Call) :
    actions (first ++ second) = actions first ++ actions second := by
  induction first with
  | nil => rfl
  | cons call rest induction =>
      cases call with
      | ask => exact induction
      | run => exact congrArg _ induction

/-- The actions that a journal tells of. -/
def ranActions : List Activity → List String
  | [] => []
  | .ran action :: rest => action :: ranActions rest
  | _ :: rest => ranActions rest

theorem ranActions_append (first second : List Activity) :
    ranActions (first ++ second) = ranActions first ++ ranActions second := by
  induction first with
  | nil => rfl
  | cons activity rest induction =>
      cases activity with
      | ran => exact congrArg _ induction
      | _ => exact induction

/-- The message of a child that is not there. -/
def missingMessage (node : Node) (index : Nat) : String :=
  node.kind.label ++ " '" ++ node.name ++ "' has no child at " ++ index.repr

/-- The message of a root without child. -/
def childlessMessage (tree : Tree) : String :=
  "root of tree '" ++ tree.name ++ "' has no child"

variable {α : Type}

/-- A node lacks a child that it would tick, with the pass in which the child is
chosen and the one in which the lack is recorded. -/
inductive Fault (tree : Tree) (node : Node) :
    Pass α → Pass α → String → Prop where
  | childless {pass : Pass α} :
      node.kind = .root →
      tree.childAt node 0 = none →
      Fault tree node pass pass (childlessMessage tree)
  | single {pass : Pass α} :
      node.kind.arity = .single →
      tree.childAt node 0 = none →
      Fault tree node pass pass (missingMessage node 0)
  | listed {pass : Pass α} {index : Nat} :
      index < node.children.length →
      tree.childAt node index = none →
      Fault tree node pass pass (missingMessage node index)
  | drawn {pass : Pass α} {index : Nat} :
      (pass.nextProbChild tree node).1 = some index →
      tree.childAt node index = none →
      Fault tree node pass (pass.nextProbChild tree node).2
        (missingMessage node index)

/-- What a node with all its children can run into, with the message of it. -/
inductive Mistake (setting : Setting α) (tree : Tree) (node : Node) :
    String → Prop where
  | unknownCondition {predicate : String} :
      node.kind = .condition predicate ∨ node.kind = .verifier predicate →
      setting.behaviors.conditions[predicate]? = none →
      Mistake setting tree node
        ("unknown condition '" ++ predicate ++ "' at node '" ++ node.name ++ "'")
  | unknownCommand {action : String} :
      node.kind = .command action →
      setting.behaviors.commands[action]? = none →
      Mistake setting tree node
        ("unknown command '" ++ action ++ "' at node '" ++ node.name ++ "'")
  | noTarget :
      node.kind = .transition none →
      Mistake setting tree node
        ("transition '" ++ node.name ++ "' has no target tree")
  | missingTarget {selector : TreeSelector} :
      node.kind = .transition (some selector) →
      setting.forest.select selector = none →
      Mistake setting tree node
        ("transition '" ++ node.name ++ "' targets missing tree " ++
          selector.text)
  | tooDeep {selector : TreeSelector} :
      node.kind = .transition (some selector) →
      Mistake setting tree node
        ("transition depth " ++ setting.config.maxTransitionDepth.toNat.repr ++
          " exceeded at '" ++ node.name ++ "'")

/-- Why the update of a node comes to an error of its own. -/
inductive Complaint (setting : Setting α) (tree : Tree) (node : Node) :
    Pass α → Pass α → String → Prop where
  | fault {chosen failing : Pass α} {message : String} :
      Fault tree node chosen failing message →
      Complaint setting tree node chosen failing message
  | mistake {pass : Pass α} {message : String} :
      Mistake setting tree node message →
      Complaint setting tree node pass pass message

namespace Pass

/-- What an update does to a pass without calling a behaviour. -/
inductive Move (tree : Tree) (node : Node) : Pass α → Pass α → Prop where
  | ensure (pass : Pass α) : Move tree node pass (pass.ensureState tree node).2
  | misfit (pass : Pass α) :
      Move tree node pass (pass.note (.misfit (tree.refTo node)))
  | echo (pass : Pass α) (message : String) :
      Move tree node pass (pass.emit "bt.echo" node.hash message)
  | recordMem {before after : Pass α} (index : Nat) :
      PassM.recordMem tree node index before = some ((), after) →
      Move tree node before after
  | recordProb {before after : Pass α} {child : Node} {index : Nat} :
      node.kind = .probSequence ∨ node.kind = .probSelector →
      tree.childAt node index = some child →
      PassM.recordProb tree node index before = some ((), after) →
      Move tree node before after
  | draw (pass : Pass α) :
      node.kind = .probSequence ∨ node.kind = .probSelector →
      Move tree node pass (pass.nextProbChild tree node).2
  | prepare (pass : Pass α) :
      Move tree node pass (pass.prepareParallel tree node).2
  | record {configured : ParallelSpec} (pass : Pass α) (index : Nat)
      (status : Status) :
      node.kind = .parallel configured →
      Move tree node pass (pass.recordResult tree node index status).2
  | setRepeatCount {before after : Pass α} (change : UInt32 → UInt32) :
      PassM.setRepeatCount tree node change before = some ((), after) →
      Move tree node before after
  | spend {configured : UInt32} (pass : Pass α) (limit remaining : UInt32) :
      node.kind = .limiter configured →
      Move tree node pass (pass.updateState tree node fun state =>
        { state with kind := .limiter limit remaining })

/-- Any number of moves. -/
abbrev Moves (tree : Tree) (node : Node) : Pass α → Pass α → Prop :=
  Relation.ReflTransGen (Move tree node)

/-- What only behaviours, refusals and new ticks change. -/
structure Reserved (before after : Pass α) : Prop where
  agent : after.agent = before.agent
  globals : after.board.globals = before.board.globals
  exhausted : after.exhausted = before.exhausted
  bound : after.board.tree = before.board.tree

namespace Reserved

variable {before middle after : Pass α}

theorem refl : Reserved before before := ⟨rfl, rfl, rfl, rfl⟩

theorem trans (first : Reserved before middle)
    (second : Reserved middle after) : Reserved before after where
  agent := second.agent.trans first.agent
  globals := second.globals.trans first.globals
  exhausted := second.exhausted.trans first.exhausted
  bound := second.bound.trans first.bound

variable (pass : Pass α) (tree : Tree) (node : Node)

theorem updateState (change : NodeState → NodeState) :
    Reserved pass (pass.updateState tree node change) := ⟨rfl, rfl, rfl, rfl⟩

theorem updateKind (change : KindState → Option KindState) :
    Reserved pass (pass.updateKind tree node change) := by
  unfold Pass.updateKind
  dsimp only
  split
  · exact ⟨rfl, rfl, rfl, rfl⟩
  · exact ⟨rfl, rfl, rfl, rfl⟩

theorem nextProbChild : Reserved pass (pass.nextProbChild tree node).2 := by
  unfold Pass.nextProbChild
  split
  · split
    · exact ⟨rfl, rfl, rfl, rfl⟩
    · split
      · exact refl
      · exact ⟨rfl, rfl, rfl, rfl⟩
    · exact ⟨rfl, rfl, rfl, rfl⟩
  · exact ⟨rfl, rfl, rfl, rfl⟩

theorem prepareParallel :
    Reserved pass (pass.prepareParallel tree node).2 := by
  unfold Pass.prepareParallel
  dsimp only
  split
  · exact ⟨rfl, rfl, rfl, rfl⟩
  · exact ⟨rfl, rfl, rfl, rfl⟩

theorem recordResult (index : Nat) (status : Status) :
    Reserved pass (pass.recordResult tree node index status).2 := by
  unfold Pass.recordResult
  split
  · split
    · exact ⟨rfl, rfl, rfl, rfl⟩
    · exact ⟨rfl, rfl, rfl, rfl⟩
  · exact ⟨rfl, rfl, rfl, rfl⟩

end Reserved

namespace Move

variable {tree : Tree} {node : Node} {before after : Pass α}

theorem aside (move : Move tree node before after) :
    Aside tree node before after := by
  cases move with
  | ensure => exact .ensureState before
  | misfit => exact .note before rfl
  | echo => exact .emit before _ _ _
  | recordMem index recorded =>
      exact PassM.aside_of_recorded (PassM.recordMem_eq tree node index before)
        recorded
  | @recordProb _ _ _ index _ _ recorded =>
      exact PassM.aside_of_recorded (PassM.recordProb_eq tree node index before)
        recorded
  | draw _ prob => exact .nextProbChild before prob
  | prepare => exact .prepareParallel before
  | record _ index status isParallel =>
      exact .recordResult before isParallel index status
  | setRepeatCount change changed =>
      exact PassM.aside_of_recorded
        (PassM.setRepeatCount_eq tree node before change) changed
  | spend _ limit remaining isLimiter =>
      refine .of_write before _ rfl rfl rfl rfl ?_
      simp [KindState.fits, KindState.shape, NodeKind.stateShape, isLimiter]

theorem reserved (move : Move tree node before after) :
    Reserved before after := by
  cases move with
  | ensure => exact .updateState before tree node id
  | misfit => exact ⟨rfl, rfl, rfl, rfl⟩
  | echo => exact ⟨rfl, rfl, rfl, rfl⟩
  | recordMem index recorded =>
      cases recorded
      exact .updateKind before tree node _
  | recordProb _ _ recorded =>
      cases recorded
      exact .updateKind before tree node _
  | draw => exact .nextProbChild before tree node
  | prepare => exact .prepareParallel before tree node
  | record _ index status =>
      exact .recordResult before tree node index status
  | setRepeatCount change changed =>
      cases changed
      exact .updateKind before tree node _
  | spend => exact .updateState before tree node _

/-- Moves are silent, apart from notes of a state of another shape. -/
theorem log (move : Move tree node before after) : ∃ count, after.log =
    before.log ++ List.replicate count (.misfit (tree.refTo node)) := by
  have silent : ∀ {after : Pass α}, after.journal = before.journal →
      ∃ count, after.log =
        before.log ++ List.replicate count (.misfit (tree.refTo node)) :=
    fun same => ⟨0, by simp [Pass.log, same]⟩
  have noted : ∀ {middle : Pass α}, middle.journal = before.journal →
      ∃ count, (middle.note (.misfit (tree.refTo node))).log =
        before.log ++ List.replicate count (.misfit (tree.refTo node)) :=
    fun same => ⟨1, by simp [Pass.log, note, same]⟩
  have updated : ∀ change : KindState → Option KindState,
      ∃ count, (before.updateKind tree node change).log =
        before.log ++ List.replicate count (.misfit (tree.refTo node)) := by
    intro change
    unfold updateKind
    dsimp only
    split
    · exact silent rfl
    · exact noted rfl
  cases move with
  | ensure => exact silent rfl
  | misfit => exact noted rfl
  | echo => exact silent rfl
  | recordMem index recorded =>
      cases recorded
      exact updated _
  | recordProb _ _ recorded =>
      cases recorded
      exact updated _
  | draw =>
      unfold nextProbChild
      split
      · split
        · exact silent rfl
        · split
          · exact silent rfl
          · exact silent rfl
        · exact noted rfl
      · exact noted rfl
  | prepare =>
      unfold prepareParallel
      dsimp only
      split
      · exact silent rfl
      · exact noted rfl
  | record =>
      unfold recordResult
      split
      · split
        · exact silent rfl
        · exact noted rfl
      · exact noted rfl
  | setRepeatCount change changed =>
      cases changed
      exact updated _
  | spend => exact silent rfl

end Move

/-- A move, or the call of a behaviour. -/
inductive Act (setting : Setting α) (tree : Tree) (node : Node) :
    Pass α → Pass α → Prop where
  | move {before after : Pass α} :
      Move tree node before after →
      Act setting tree node before after
  | ask {before : Pass α} {agent : α} {answer : Bool} (predicate : String) :
      setting.behaviors.check predicate before.agent before.board.globals =
        some (answer, agent) →
      Act setting tree node before { before with agent }
  | run {before : Pass α} {agent : α} {globals : Globals} (action : String) :
      setting.behaviors.run action before.agent before.board.globals =
        some (agent, globals) →
      Act setting tree node before
        ({ before with
            agent
            board := { before.board with globals } }.note (.ran action))

/-- Any number of acts. -/
abbrev Acts (setting : Setting α) (tree : Tree) (node : Node) :
    Pass α → Pass α → Prop :=
  Relation.ReflTransGen (Act setting tree node)

theorem Moves.acts {tree : Tree} {node : Node} {before after : Pass α}
    (moves : Moves tree node before after) (setting : Setting α) :
    Acts setting tree node before after := by
  induction moves with
  | refl => exact .refl
  | tail _ move induction => exact induction.tail (.move move)

theorem Act.aside {setting : Setting α} {tree : Tree} {node : Node}
    {before after : Pass α} (act : Act setting tree node before after) :
    Aside tree node before after := by
  cases act with
  | move move => exact move.aside
  | ask predicate => exact .of_states rfl rfl rfl rfl rfl ⟨[], by simp [log]⟩
  | run action =>
      exact .of_states rfl rfl rfl rfl rfl ⟨[.ran action], log_note _ _,
        by simp [Activity.isRemark]⟩

theorem Acts.aside {setting : Setting α} {tree : Tree} {node : Node}
    {before after : Pass α} (acts : Acts setting tree node before after) :
    Aside tree node before after := by
  induction acts with
  | refl => exact .refl
  | tail _ act induction => exact induction.trans act.aside

theorem Moves.reserved {tree : Tree} {node : Node} {before after : Pass α}
    (moves : Moves tree node before after) : Reserved before after := by
  induction moves with
  | refl => exact .refl
  | tail _ move induction => exact induction.trans move.reserved

end Pass

end BehaviorTree
