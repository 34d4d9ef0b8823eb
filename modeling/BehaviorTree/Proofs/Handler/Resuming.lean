import BehaviorTree.Proofs.Handler.History
import BehaviorTree.Proofs.Pass.Ranging
import BehaviorTree.Proofs.Pass.Resuming

/-!
# Activations of Mem composites in a history

A Mem composite at rest has its first child to come.  Ticks keep it that way,
and so do new blackboards, overriding, pruning and edits.  Only a setup that
goes on with the blackboard may not: it takes the running flag from a composite
that waits at a later child, and leaves that child to come next.
-/

namespace BehaviorTree

open BehaviorTree.Pass

variable {α : Type} {board : Blackboard} {hash : NodeHash}

theorem KindState.Resumes.of_mem {before after : KindState} {index : Nat}
    (resumes : before.Resumes after) (isMem : after = .mem index) :
    before = .mem index := by
  subst isMem
  cases before with
  | parallel => obtain ⟨_, same⟩ := resumes; cases same
  | repeater => obtain ⟨_, same⟩ := resumes; cases same
  | limiter => obtain ⟨_, _, same, _⟩ := resumes; cases same
  | _ => exact resumes.symm

namespace Blackboard

/-- The node is running at a child other than the first. -/
def suspends (board : Blackboard) (hash : NodeHash) : Bool :=
  board.states[hash]?.any fun state =>
    state.running &&
      match state.kind with
      | .mem index => index ≠ 0
      | _ => false

theorem rests_of_absent (absent : board.states[hash]? = none) :
    board.Rests hash := by
  intro state index present
  rw [absent] at present
  cases present

theorem Rests.seedState (atRest : board.Rests hash) {override : Bool}
    (tree : Tree) (node : Node) :
    (board.seedState tree node override).Rests hash := by
  rw [seedState_eq]
  by_cases same : hash = node.hash
  · subst same
    refine .of_state (by rw [states_setState, if_pos rfl]) ?_
    intro quiet index isMem
    rw [seeded] at quiet isMem
    split at isMem
    · exact eq_zero_of_forNode isMem
    · next kept =>
        rw [if_neg kept] at quiet
        have resumed := NodeState.resumes_syncKind
          (board.stateFor tree node).kind node.kind
        exact atRest.stateFor quiet (resumed.of_mem isMem)
  · exact atRest.congr (by rw [states_setState, if_neg same])

theorem Rests.clearRunning (atRest : board.Rests hash)
    (undisturbed : board.suspends hash = false) :
    board.clearRunning.Rests hash := by
  intro state index present _ isMem
  rw [states_clearRunning] at present
  obtain ⟨found, isFound, rfl⟩ := Option.map_eq_some_iff.mp present
  dsimp only at isMem
  cases running : found.running with
  | true => simpa [suspends, isFound, running, isMem] using undisturbed
  | false => exact atRest found index isFound running isMem

theorem Rests.pruneOrphans (atRest : board.Rests hash) (forest : Forest) :
    (board.pruneOrphans forest).Rests hash := by
  intro state index present
  apply atRest
  rw [Blackboard.pruneOrphans, Std.ExtTreeMap.getElem?_filter'] at present
  exact (Option.filter_eq_some_iff.mp present).1

end Blackboard

namespace Handler

variable {handler : Handler α}

theorem rests_rootPass {forest : Forest} (wellFormed : forest.WellFormed)
    (agent : α) (atRest : board.Rests hash) :
    (handler.rootPass forest board agent).board.Rests hash :=
  abandonEach_keeps wellFormed (·.board.Rests hash)
    (fun {_ tree node} _ _ atRest => rests_abandonNode atRest _ tree node) _
    atRest

theorem rests_boundBoard [Agent α] (forest : Forest) (tree : Tree) {agent : α}
    {override : Bool}
    (atRest : ∀ board, handler.blackboard = some board → board.Rests hash)
    (undisturbed : ∀ board,
      handler.Continues tree.id (Agent.stableId agent) override board →
      board.suspends hash = false) :
    (handler.boundBoard forest tree agent override).Rests hash := by
  have bound : (handler.bindBlackboard tree.id (Agent.stableId agent)
      override).Rests hash := by
    by_cases continues : ∃ board,
        handler.Continues tree.id (Agent.stableId agent) override board
    · obtain ⟨board, continues⟩ := continues
      rw [bindBlackboard_of_continues continues]
      exact (atRest board continues.holds).clearRunning
        (undisturbed board continues)
    · rw [bindBlackboard_of_not_continues (not_exists.mp continues)]
      exact Blackboard.rests_of_absent Std.ExtTreeMap.getElem?_empty
  apply seedStates_keeps (·.Rests hash) _ bound
  exact fun rests tree node => rests.seedState tree node

end Handler

namespace Session

/-- The node is at rest on the blackboard, if there is one. -/
def Rests (session : Session α) (hash : NodeHash) : Prop :=
  ∀ board, session.handler.blackboard = some board → board.Rests hash

theorem rests_mapBoard {session : Session α} (atRest : session.Rests hash)
    {change : Blackboard → Blackboard}
    (keeps : ∀ {board : Blackboard}, board.Rests hash →
      (change board).Rests hash) : (session.mapBoard change).Rests hash := by
  intro board holds
  obtain ⟨previous, held, rfl⟩ := Option.map_eq_some_iff.mp holds
  exact keeps (atRest previous held)

variable [Agent α]

/-- The event is a setup that goes on with a blackboard on which the node is
running at a child other than the first. -/
def disturbs (session : Session α) (hash : NodeHash) : Event α → Bool
  | .setup agent selector override =>
    match session.handler.approve session.forest agent selector,
      session.handler.blackboard with
    | .ok tree, some board =>
      !override && board.tree = tree.id && board.agent = Agent.stableId agent &&
        board.suspends hash
    | _, _ => false
  | _ => false

/-- No event of the history disturbs the node. -/
def spares (session : Session α) (hash : NodeHash) : List (Event α) → Bool
  | [] => true
  | first :: rest =>
    !session.disturbs hash first &&
      (session.step first).all fun after => after.spares hash rest

variable {session after : Session α} {event : Event α} {events : List (Event α)}

theorem rests_step (sound : session.woodland.Sound) (atRest : session.Rests hash)
    (spared : session.disturbs hash event = false)
    (stepped : session.step event = some after) : after.Rests hash := by
  cases event with
  | edit step =>
      obtain ⟨woodland, _, rfl⟩ := Option.map_eq_some_iff.mp stepped
      exact atRest
  | setup agent selector override =>
      rw [step_setup] at stepped
      cases approved : session.handler.approve session.forest agent selector with
      | error cause =>
          rw [approved] at stepped
          exact Option.some.inj stepped ▸ atRest
      | ok tree =>
          rw [approved] at stepped
          rw [← Option.some.inj stepped]
          rintro _ ⟨⟩
          apply Handler.rests_boundBoard _ _ atRest
          intro board continues
          simpa [disturbs, approved, continues.holds, continues.kept,
            continues.boundTo, continues.boundFor] using spared
  | tick fuel agent =>
      obtain ⟨outcome, ticked, rfl⟩ := Option.map_eq_some_iff.mp stepped
      cases outcome with
      | error => exact atRest
      | ok report =>
          rintro _ ⟨⟩
          obtain ⟨board, holds⟩ := Handler.holds_of_tick ticked
          obtain ⟨tree, registered, ended⟩ :=
            (Handler.tick_eq_ok_iff holds).mp ticked
          exact rests_of_tick sound.wellFormed
            (sound.wellFormed.located_root registered) ended
            (Handler.rests_rootPass sound.wellFormed agent (atRest board holds))
  | prune =>
      rw [← Option.some.inj stepped]
      exact rests_mapBoard atRest fun rests => rests.pruneOrphans _
  | share change =>
      rw [← Option.some.inj stepped]
      exact rests_mapBoard atRest fun rests => rests

theorem rests_run (sound : session.woodland.Sound) (atRest : session.Rests hash)
    (spared : session.spares hash events = true)
    (ran : session.run events = some after) : after.Rests hash := by
  induction events generalizing session with
  | nil => exact Option.some.inj ran ▸ atRest
  | cons first rest induction =>
      obtain ⟨middle, stepped, ran⟩ := Option.bind_eq_some_iff.mp ran
      rw [spares, stepped, Option.all_some, Bool.and_eq_true,
        Bool.not_eq_true'] at spared
      exact induction (sound_step sound stepped)
        (rests_step sound atRest spared.1 stepped) spared.2 ran

/-- After any history of setups, ticks, prunings and edits, a Mem composite with
children begins each activation with its first child, unless a setup that went
on with the blackboard found it running at a later one. -/
theorem activations_of_run {behaviors : Behaviors α} {config : HandlerConfig}
    (ran : (start behaviors config).run events = some session)
    {home : Tree} {composite : Node}
    (composed : session.forest.Located home composite)
    (isMem : composite.kind.IsMem) (someChild : composite.children ≠ [])
    (spared : (start behaviors config).spares composite.hash events = true)
    {fuel : Nat} {agent : α} {report : TickReport α}
    (ticked : Handler.tick fuel session.forest session.handler agent =
      some (.ok report)) :
    ∃ child, home.childAt composite 0 = some child ∧
      StartsAt (home.refTo composite) (home.refTo child) report.pass.log := by
  have sound := sound_run Woodland.sound_empty ran
  have wellFormed : session.forest.WellFormed := sound.wellFormed
  obtain ⟨child, isChild⟩ := wellFormed.exists_childAt composed
    (List.length_pos_iff.mpr someChild)
  refine ⟨child, isChild, ?_⟩
  have atRest : (start behaviors config).Rests composite.hash := by
    intro board holds
    cases holds
  obtain ⟨board, holds⟩ := Handler.holds_of_tick ticked
  obtain ⟨tree, registered, ended⟩ := (Handler.tick_eq_ok_iff holds).mp ticked
  have starts := restarts_of_tick wellFormed sound.labelled.isScoped composed
    isMem isChild (wellFormed.located_root registered) ended
  obtain ⟨growth, log, activations⟩ := starts.log
  obtain ⟨swept, sweeps⟩ :=
    session.handler.sweeps_rootPass session.forest board agent
  have sweepsOnly : .opened (home.refTo composite) ∉ sweep swept := by
    simp [sweep]
  rw [log, sweeps.log]
  apply StartsAt.append (.of_absent sweepsOnly)
  exact activations (Handler.rests_rootPass wellFormed agent
    (rests_run Woodland.sound_empty atRest spared ran board holds))

/-- Unless there is an alarm the work is started, and stopped once nothing is
busy. -/
def duty : Subtree :=
  { name := "duty", hash := some ⟨"duty-1"⟩, kind := .selector
    children :=
      [{ name := "alarm", hash := some ⟨"alarm-1"⟩, kind := .condition "alarm" },
       { name := "work", hash := some ⟨"work-1"⟩, kind := .memSequence
         children :=
           [{ name := "begin", hash := some ⟨"begin-1"⟩
              kind := .echoLeaf "begin" true },
            { name := "wait", hash := some ⟨"wait-1"⟩
              kind := .allocator ["busy"]
              children :=
                [{ name := "end", hash := some ⟨"end-1"⟩
                   kind := .echoLeaf "end" true }] }] }] }

/-- Numbers other than zero are agents under alarm. -/
def guard : Session UInt64 :=
  start (({} : Behaviors UInt64).withCondition "alarm"
    (reading fun agent _ => agent ≠ 0)) {}

/-- The guard begins to work and waits. -/
def dawn : List (Event UInt64) :=
  [.edit (.plant { name := "shift", chosen := some ⟨1⟩ }),
   .edit (.edit ⟨1⟩ (.add (.detached duty) (Tree.build ⟨1⟩ "shift" {}).root none
     false)),
   .setup 0 (some (.byId ⟨1⟩)) false, .share (·.claim "busy"), .tick 20 0]

/-- The guard finishes. -/
def dusk : List (Event UInt64) := [.share (·.release "busy"), .tick 20 0, .prune]

/-- The work that was finished begins anew. -/
theorem work_begins_anew :
    ∃ (session : Session UInt64) (home : Tree) (work child : Node)
      (report : TickReport UInt64),
      guard.run (dawn ++ dusk) = some session ∧
      session.forest.Located home work ∧ work.kind = .memSequence ∧
      Handler.tick 20 session.forest session.handler 0 = some (.ok report) ∧
      .opened (home.refTo work) ∈ report.pass.log ∧
      home.childAt work 0 = some child ∧
      StartsAt (home.refTo work) (home.refTo child) report.pass.log := by
  have checked : (guard.run (dawn ++ dusk)).any (fun session =>
      (session.forest.get? ⟨1⟩).any fun home =>
      home.nodes[(⟨"work-1"⟩ : NodeHash)]?.any fun work =>
      (Handler.reported (Handler.tick 20 session.forest session.handler
        (0 : UInt64))).any fun report =>
        decide (work.kind = .memSequence) && decide (work.children ≠ []) &&
          guard.spares work.hash (dawn ++ dusk) &&
          decide (.opened (home.refTo work) ∈ report.pass.log)) = true := by
    decide +kernel
  obtain ⟨session, home, work, ran, _, located, passed⟩ :=
    exists_located_of_run Woodland.sound_empty checked
  obtain ⟨report, ticked, passed⟩ := (Option.any_eq_true _ _).mp passed
  rw [Handler.reported_eq_some_iff] at ticked
  simp only [Bool.and_eq_true, decide_eq_true_eq] at passed
  obtain ⟨⟨⟨isMem, someChild⟩, spared⟩, opened⟩ := passed
  obtain ⟨child, isChild, starts⟩ := activations_of_run ran located
    (.inl isMem) someChild spared ticked
  exact ⟨session, home, work, child, report, ran, located, isMem, ticked,
    opened, isChild, starts⟩

/-- A setup that goes on with the blackboard finds the guard waiting, and the
next shift starts with the wait. -/
theorem work_begins_late :
    ∃ (session : Session UInt64) (home : Tree) (work child : Node)
      (report : TickReport UInt64),
      guard.run (dawn ++ [.setup 0 none false, .tick 20 1]) = some session ∧
      session.forest.Located home work ∧ work.kind = .memSequence ∧
      Handler.tick 20 session.forest session.handler 0 = some (.ok report) ∧
      .opened (home.refTo work) ∈ report.pass.log ∧
      home.childAt work 0 = some child ∧
      ¬ StartsAt (home.refTo work) (home.refTo child) report.pass.log := by
  have checked : (guard.run (dawn ++ [.setup 0 none false, .tick 20 1])).any
      (fun session =>
        (session.forest.get? ⟨1⟩).any fun home =>
        home.nodes[(⟨"work-1"⟩ : NodeHash)]?.any fun work =>
        (home.childAt work 0).any fun child =>
        (Handler.reported (Handler.tick 20 session.forest session.handler
          (0 : UInt64))).any fun report =>
          decide (work.kind = .memSequence) &&
            decide (.opened (home.refTo work) ∈ report.pass.log) &&
            decide (¬ StartsAt (home.refTo work) (home.refTo child)
              report.pass.log)) = true := by
    decide +kernel
  obtain ⟨session, home, work, ran, _, located, passed⟩ :=
    exists_located_of_run Woodland.sound_empty checked
  obtain ⟨child, isChild, passed⟩ := (Option.any_eq_true _ _).mp passed
  obtain ⟨report, ticked, passed⟩ := (Option.any_eq_true _ _).mp passed
  rw [Handler.reported_eq_some_iff] at ticked
  simp only [Bool.and_eq_true, decide_eq_true_eq] at passed
  obtain ⟨⟨isMem, opened⟩, late⟩ := passed
  exact ⟨session, home, work, child, report, ran, located, isMem, ticked, opened,
    isChild, late⟩

end Session

end BehaviorTree
