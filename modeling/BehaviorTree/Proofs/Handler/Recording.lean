import BehaviorTree.Proofs.Handler.Run
import BehaviorTree.Proofs.Pass.Recording

/-!
# Balanced lifecycles

A blackboard that records from the start on, and is ticked only by handlers that
trace the lifecycle of nodes, holds a balanced record: each node is opened and
closed by turns, whatever Transitions lead to it, and it is flagged as running
exactly between an opening and the closing.
-/

namespace BehaviorTree

open BehaviorTree.Pass

variable {α : Type} {forest : Forest} {board : Blackboard}

/-- The record of a blackboard tells of every hash whether it is running. -/
structure Blackboard.Recounts (forest : Forest) (board : Blackboard) : Prop where
  tells : ∀ hash, board.Tells forest hash
  heeds : board.tracer.Heeds

/-- A new record of a blackboard on which nothing is running. -/
theorem Blackboard.Idle.recounts (idle : board.Idle)
    (records : board.tracer = .recording) : board.Recounts forest where
  tells hash := by
    refine ⟨⟨[], ⟨{}, ?_, rfl⟩, .nil, ?_⟩, fun _ _ present running => ?_⟩
    · rw [records]
      rfl
    · rw [idle.isRunning]
      simp
    · rw [idle.unflagged present] at running
      cases running
  heeds := by
    refine ⟨{}, ?_, ?_⟩
    · rw [records]
      rfl
    · intro earlier later event split
      cases earlier <;> cases split

/-- Transitions lead to trees of larger ids only. -/
def Forest.ascends (forest : Forest) : Bool :=
  forest.trees.toList.all fun entry => entry.2.nodes.toList.all fun node =>
    node.2.kind.transitionTarget.all fun selector =>
      (forest.select selector).all fun target => entry.1.value < target.id.value

theorem Forest.acyclic_of_ascends (ascends : forest.ascends = true) :
    forest.Acyclic := by
  have climbs : ∀ {id next}, forest.Links id next → id.value < next.value := by
    rintro _ _ ⟨tree, node, selector, target, located, rfl, jumps, selected, rfl⟩
    have inTree := List.all_eq_true.mp ascends (tree.id, tree)
      (Std.ExtTreeMap.mem_toList_iff_getElem?_eq_some.mpr located.inForest)
    have atNode := List.all_eq_true.mp inTree (node.hash, node)
      (Std.ExtTreeMap.mem_toList_iff_getElem?_eq_some.mpr located.inTree)
    simpa [jumps, selected] using atNode
  have chained : ∀ {id next}, Relation.TransGen forest.Links id next →
      id.value < next.value := by
    intro id next chain
    induction chain with
    | single links => exact climbs links
    | tail _ links induction => exact UInt64.lt_trans induction (climbs links)
  exact fun id chain => UInt64.lt_irrefl _ (chained chain)

namespace Handler

/-- Ticks one after the other, each by a handler that traces the lifecycle of
nodes. -/
inductive Chronicle (forest : Forest) :
    Blackboard → List (TickReport α) → Prop where
  | done {board : Blackboard} : Chronicle forest board []
  | tick {board : Blackboard} {fuel : Nat} {handler : Handler α} {agent : α}
      {report : TickReport α} {later : List (TickReport α)} :
      handler.blackboard = some board →
      handler.config.traceLifecycle = true →
      tick fuel forest handler agent = some (.ok report) →
      Chronicle forest report.pass.board later →
      Chronicle forest board (report :: later)

theorem chronicle_of_tickEach {fuel : Nat} {handler : Handler α}
    {agents : List α} {reports : List (TickReport α)}
    (holds : handler.blackboard = some board)
    (ticked : tickEach fuel forest handler agents = some reports)
    (traced : handler.config.traceLifecycle = true) :
    Chronicle forest board reports := by
  induction agents generalizing handler board reports with
  | nil =>
      cases ticked
      exact .done
  | cons agent rest induction =>
      rw [tickEach] at ticked
      split at ticked
      · next report ran =>
          obtain ⟨later, lateTicks, rfl⟩ := Option.map_eq_some_iff.mp ticked
          exact .tick holds traced ran (induction rfl lateTicks traced)
      · cases ticked

section Chronicles

variable (wellFormed : forest.WellFormed) (isScoped : forest.Scoped)
  (acyclic : forest.Acyclic)
include wellFormed isScoped acyclic

theorem recounts_of_tick {fuel : Nat} {handler : Handler α} {agent : α}
    {report : TickReport α} (holds : handler.blackboard = some board)
    (traced : handler.config.traceLifecycle = true)
    (ticked : tick fuel forest handler agent = some (.ok report))
    (recounts : board.Recounts forest) :
    report.pass.board.Recounts forest := by
  obtain ⟨tree, registered, rooted⟩ := (tick_eq_ok_iff holds).mp ticked
  have located := wellFormed.located_root registered
  have traces : (handler.setting forest).config.traceLifecycle = true := traced
  have wellFormed : (handler.setting forest).forest.WellFormed := wellFormed
  have swept : (handler.rootPass forest board agent).board.Recounts forest := by
    refine abandonEach_keeps wellFormed
      (fun pass => pass.board.Recounts forest) ?_ _ ?_
    · intro pass tree node _ flagged recounts
      refine ⟨fun hash => (recounts.tells hash).abandonNode traces flagged, ?_⟩
      rw [tracer_abandonNode traces]
      exact recounts.heeds.emit_emit rfl rfl
    · exact ⟨fun hash => (recounts.tells hash).congr rfl id, recounts.heeds⟩
  exact ⟨fun hash => PassM.tells_of_tick traces wellFormed isScoped acyclic
      located rooted (swept.tells hash),
    PassM.heeds_of_tick traces wellFormed located rooted swept.heeds⟩

theorem Chronicle.recounts (recounts : board.Recounts forest)
    {reports : List (TickReport α)} (chronicle : Chronicle forest board reports)
    {report : TickReport α} (member : report ∈ reports) :
    report.pass.board.Recounts forest := by
  induction chronicle with
  | done => cases member
  | tick holds traced ticked _ induction =>
      have after := recounts_of_tick wellFormed isScoped acyclic holds traced
        ticked recounts
      rcases List.mem_cons.mp member with rfl | member
      · exact after
      · exact induction after member

end Chronicles

theorem recounts_of_setup [Agent α] {agent : α} {selector : Option TreeSelector}
    {override : Bool} {id : TreeId} {previous handler : Handler α}
    (fresh : previous.blackboard = none)
    (records : previous.config.recordTrace = true)
    (bound : (setup forest agent selector override).run previous =
      .ok id handler)
    (holds : handler.blackboard = some board) : board.Recounts forest := by
  rw [setup_eq] at bound
  split at bound
  · cases bound
  · cases bound
    cases holds
    refine (previous.idle_boundBoard _ _ _ _).recounts ?_
    refine seedStates_keeps (fun board => board.tracer = .recording)
      (fun {board} held tree node => ?_) ?_
    · rw [Blackboard.seedState]
      split
      · exact held
      · exact held
    · rw [bindBlackboard, fresh]
      dsimp only
      rw [if_pos records]
      rfl

/-- After every tick of a run that is recorded from a fresh setup on: each hash
is opened and closed by turns, beginning with an opening; every abandoned node is
closed by the next event; and a hash is flagged as running exactly if its last
turn was an opening. -/
theorem lifecycles_of_run [Agent α] (wellFormed : forest.WellFormed)
    (isScoped : forest.Scoped) (acyclic : forest.Acyclic) {agent : α}
    {selector : Option TreeSelector} {override : Bool} {id : TreeId}
    {previous handler : Handler α} (fresh : previous.blackboard = none)
    (records : previous.config.recordTrace = true)
    (bound : (setup forest agent selector override).run previous =
      .ok id handler)
    (holds : handler.blackboard = some board) {reports : List (TickReport α)}
    (chronicle : Chronicle forest board reports) :
    ∀ report ∈ reports, ∃ log, report.pass.board.tracer.log = some log ∧
      ClosesAbandoned log.events.toList ∧
      ∀ hash, Alternates (log.turns hash) ∧
        (report.pass.board.isRunning hash = true ↔
          (log.turns hash).getLast? = some "bt.open") := by
  intro report member
  have recounts := chronicle.recounts wellFormed isScoped acyclic
    (recounts_of_setup fresh records bound holds) member
  obtain ⟨log, isLog, closes⟩ := recounts.heeds
  refine ⟨log, isLog, closes, fun hash => ?_⟩
  obtain ⟨tags, ⟨other, same, rfl⟩, told⟩ := (recounts.tells hash).turns
  rw [isLog] at same
  cases same
  exact told

/-- One who goes to a shelter unless there is an alarm. -/
def sentry : Subtree :=
  { name := "sentry", hash := some ⟨"sentry-1"⟩, kind := .selector
    children :=
      [{ name := "alarm", hash := some ⟨"alarm-1"⟩, kind := .condition "alarm" },
       { name := "enter", hash := some ⟨"enter-1"⟩
         kind := .transition (some (.byId ⟨2⟩)) }] }

/-- A shelter to rest in for two ticks. -/
def shelter : Subtree :=
  { name := "rest", hash := some ⟨"rest-2"⟩, kind := .repeater 2
    children :=
      [{ name := "sit", hash := some ⟨"sit-2"⟩, kind := .echoLeaf "sit" true }] }

def sentrySteps : List Grove.Step :=
  [.build ⟨1⟩ "sentry" {},
   .edit 0 (.add (.detached sentry) (Tree.build ⟨1⟩ "sentry" {}).root none false),
   .build ⟨2⟩ "shelter" {},
   .edit 1 (.add (.detached shelter) (Tree.build ⟨2⟩ "shelter" {}).root none
     false)]

/-- A watchman who records what he does. -/
def chronicler : Handler UInt64 :=
  { watchman with config := { traceLifecycle := true, recordTrace := true } }

/-- The rest that an alarm interrupts is closed when it is abandoned, and opened
again in the same tick. -/
theorem rest_recorded :
    ∃ (forest : Forest) (reports : List (TickReport UInt64)),
      (∃ id handler board,
        (setup forest (0 : UInt64) (some (.byId ⟨1⟩)) false).run chronicler =
          .ok id handler ∧
        handler.blackboard = some board ∧ Chronicle forest board reports) ∧
      ∃ report ∈ reports, ∃ log, report.pass.board.tracer.log = some log ∧
        ClosesAbandoned log.events.toList ∧
        (log.withTag "bt.abandon").size = 3 ∧
        log.turns ⟨"rest-2"⟩ = ["bt.open", "bt.close", "bt.open"] ∧
        report.pass.board.isRunning ⟨"rest-2"⟩ = true := by
  have checked : (Grove.run [] sentrySteps).any (fun grove =>
      let forest := Forest.ofTrees grove
      (decide forest.Scoped && forest.ascends) &&
      (SetupM.outcome ((setup forest (0 : UInt64) (some (.byId ⟨1⟩)) false).run
        chronicler)).any fun bound =>
        bound.2.config.traceLifecycle &&
        (tickEach 20 forest bound.2 [0, 1, 0]).any fun reports =>
          reports.any fun report => report.pass.board.tracer.log.any fun log =>
            (log.withTag "bt.abandon").size = 3 &&
            log.turns ⟨"rest-2"⟩ = ["bt.open", "bt.close", "bt.open"]) =
      true := by
    decide +kernel
  obtain ⟨grove, built, passed⟩ := (Option.any_eq_true _ _).mp checked
  have wellFormed : (Forest.ofTrees grove).WellFormed := .of_steps built
  obtain ⟨shape, passed⟩ := Bool.and_eq_true_iff.mp passed
  obtain ⟨scopes, ascends⟩ := Bool.and_eq_true_iff.mp shape
  obtain ⟨⟨id, handler⟩, bound, passed⟩ := (Option.any_eq_true _ _).mp passed
  rw [SetupM.outcome_eq_some_iff] at bound
  obtain ⟨board, holds, _⟩ := idle_of_setup bound
  obtain ⟨traced, passed⟩ := Bool.and_eq_true_iff.mp passed
  obtain ⟨reports, ticked, passed⟩ := (Option.any_eq_true _ _).mp passed
  obtain ⟨report, member, passed⟩ := List.any_eq_true.mp passed
  obtain ⟨log, isLog, passed⟩ := (Option.any_eq_true _ _).mp passed
  obtain ⟨three, turns⟩ := Bool.and_eq_true_iff.mp passed
  have chronicle := chronicle_of_tickEach holds ticked traced
  obtain ⟨_, same, closes, told⟩ := lifecycles_of_run wellFormed
    (of_decide_eq_true scopes) (Forest.acyclic_of_ascends ascends) rfl rfl bound
    holds chronicle report member
  rw [isLog] at same
  cases same
  have turns := of_decide_eq_true turns
  refine ⟨_, reports, ⟨id, handler, board, bound, holds, chronicle⟩, report,
    member, log, isLog, closes, of_decide_eq_true three, turns, ?_⟩
  rw [(told ⟨"rest-2"⟩).2, turns]
  rfl

end Handler

end BehaviorTree
