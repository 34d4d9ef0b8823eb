import BehaviorTree.Proofs.Handler.Resuming
import BehaviorTree.Proofs.Pass.Succeeding

/-!
# Successes of MemSequences in a history

A running MemSequence goes on at a position among its children, which edits of
the tree do not move.  As long as the children before that position are some of
those that were before it at the tick before, a MemSequence that succeeds has
seen all its children succeed since it was opened.  An edit that brings another
child before it, or the waiting one, makes it succeed without that child.
-/

namespace BehaviorTree

open BehaviorTree.Pass

variable {α : Type}

/-- The first children of a MemSequence; none if the node is of another kind or
not there. -/
def Forest.passed (forest : Forest) (ref : NodeRef) (count : Nat) :
    List NodeHash :=
  match forest.node? ref with
  | some node =>
    if node.kind = .memSequence then node.children.take count else []
  | none => []

section Passed

variable {forest : Forest} {ref : NodeRef} {count : Nat}

theorem Forest.passed_eq {home : Tree} {composite : Node}
    (composed : forest.Located home composite)
    (isSequence : composite.kind = .memSequence) (count : Nat) :
    forest.passed (home.refTo composite) count =
      composite.children.take count := by
  rw [passed, node?_refTo composed]
  exact if_pos isSequence

theorem Forest.passed_zero (forest : Forest) (ref : NodeRef) :
    forest.passed ref 0 = [] := by
  rw [passed]
  split
  · exact ite_self _
  · rfl

theorem Forest.mem_passed_mono {more : Nat} (fewer : count ≤ more)
    {child : NodeHash} (member : child ∈ forest.passed ref count) :
    child ∈ forest.passed ref more := by
  rw [passed] at member ⊢
  cases found : forest.node? ref with
  | none =>
      rw [found] at member
      cases member
  | some node =>
      rw [found] at member
      dsimp only at member ⊢
      split_ifs at member ⊢
      · exact List.take_subset_take_left node.children fewer member
      · cases member

theorem Forest.WellFormed.of_mem_passed (wellFormed : forest.WellFormed)
    {child : NodeHash} (member : child ∈ forest.passed ref count) :
    ∃ home composite, forest.Located home composite ∧
      home.refTo composite = ref ∧ composite.kind = .memSequence := by
  rw [Forest.passed] at member
  cases found : forest.node? ref with
  | none =>
      rw [found] at member
      cases member
  | some composite =>
      rw [found] at member
      dsimp only at member
      split_ifs at member with isSequence
      · obtain ⟨home, registered, inTree⟩ := Option.bind_eq_some_iff.mp found
        refine ⟨home, composite, wellFormed.located_of_registered registered
          inTree, ?_, isSequence⟩
        rw [Tree.refTo, wellFormed.keyed registered,
          (wellFormed.trees registered).keyed inTree]
      · cases member

end Passed

namespace Blackboard

variable {board before middle after : Blackboard} {ref : NodeRef}
  {earlier forest : Forest} {past : List Activity}

/-- Every node has the state that it had, or is not running. -/
def Recedes (before after : Blackboard) : Prop :=
  ∀ hash, after.states[hash]? = before.states[hash]? ∨
    after.isRunning hash = false

theorem Recedes.trans (first : Recedes before middle)
    (second : Recedes middle after) : Recedes before after := by
  intro hash
  rcases second hash with same | quiet
  · rcases first hash with kept | quiet
    · exact .inl (same.trans kept)
    · right
      rwa [isRunning_congr same]
  · exact .inr quiet

theorem Recedes.running {hash : NodeHash} (recedes : Recedes before after)
    (running : after.isRunning hash = true) : before.isRunning hash = true := by
  rcases recedes hash with same | quiet
  · rwa [← isRunning_congr same]
  · rw [quiet] at running
    cases running

theorem Recedes.resumePoint_le (recedes : Recedes before after)
    (hash : NodeHash) : after.resumePoint hash ≤ before.resumePoint hash := by
  rcases recedes hash with same | quiet
  · rw [resumePoint_congr same]
  · rw [resumePoint_of_quiet quiet]
    exact Nat.zero_le _

theorem recedes_pruneOrphans (board : Blackboard) (forest : Forest) :
    Recedes board (board.pruneOrphans forest) := by
  intro hash
  have pruned : (board.pruneOrphans forest).states[hash]? =
      board.states[hash]?.filter fun _ => forest.registers hash :=
    Std.ExtTreeMap.getElem?_filter'
  cases registered : forest.registers hash with
  | true =>
      left
      rw [pruned, registered]
      cases board.states[hash]? <;> rfl
  | false =>
      right
      rw [isRunning, pruned, registered]
      cases board.states[hash]? <;> rfl

/-- A blackboard on which what runs has been opened, and on which the children
are known to have succeeded that the composite passed over in a forest. -/
structure Assured (board : Blackboard) (ref : NodeRef) (earlier : Forest)
    (past : List Activity) : Prop where
  rests : board.Rests ref.hash
  opened : ∀ hash, board.isRunning hash = true → IsOpened hash past
  passed : ∀ child ∈ earlier.passed ref (board.resumePoint ref.hash),
    resultSinceOpened ref.hash child past = some .success

namespace Assured

theorem recede (assured : before.Assured ref earlier past)
    (recedes : Recedes before after) (rests : after.Rests ref.hash) :
    after.Assured ref earlier past where
  rests := rests
  opened hash running := assured.opened hash (recedes.running running)
  passed child member :=
    assured.passed child
      (Forest.mem_passed_mono (recedes.resumePoint_le _) member)

theorem of_idle (idle : board.Idle) (rests : board.Rests ref.hash) :
    board.Assured ref earlier past where
  rests := rests
  opened hash running := by
    rw [idle.isRunning] at running
    cases running
  passed child member := by
    rw [resumePoint_of_quiet (idle.isRunning _), Forest.passed_zero] at member
    cases member

end Assured

end Blackboard

namespace Handler

variable {handler : Handler α}

theorem recedes_rootPass {forest : Forest} (wellFormed : forest.WellFormed)
    (board : Blackboard) (agent : α) :
    Blackboard.Recedes board (handler.rootPass forest board agent).board := by
  refine abandonEach_keeps wellFormed (fun pass =>
    Blackboard.Recedes board pass.board) ?_ _ fun _ => .inl rfl
  intro pass tree node _ _ recedes
  refine recedes.trans fun hash => ?_
  have writes := pass.writes_abandonNode (handler.setting forest).config tree node
  by_cases same : hash = node.hash
  · rw [same]
    exact .inr writes.isRunning
  · exact .inl (writes.elsewhere same)

theorem swept_of_report {forest : Forest} {fuel : Nat} {agent : α}
    {report : TickReport α}
    (ticked : tick fuel forest handler agent = some (.ok report)) :
    ∃ board tree swept, handler.blackboard = some board ∧
      forest.get? board.tree = some tree ∧
      (handler.rootPass forest board agent).log = sweep swept ∧
      PassM.tick (handler.setting forest) fuel tree tree.rootNode
        (handler.rootPass forest board agent) =
          some (report.status, report.pass) := by
  obtain ⟨board, holds⟩ := holds_of_tick ticked
  obtain ⟨tree, registered, ended⟩ := (tick_eq_ok_iff holds).mp ticked
  obtain ⟨swept, sweeps⟩ := handler.sweeps_rootPass forest board agent
  exact ⟨board, tree, swept, holds, registered, sweeps.log, ended⟩

end Handler

namespace Session

/-- The entries that a tick adds to what is told of a history. -/
def told (session : Session α) : Event α → List Activity
  | .tick fuel agent =>
    match Handler.reported
      (Handler.tick fuel session.forest session.handler agent) with
    | some report => report.pass.log
    | none => []
  | _ => []

/-- The forest of the latest tick. -/
def latest (session : Session α) (earlier : Forest) : Event α → Forest
  | .tick _ _ => session.forest
  | _ => earlier

/-- At a tick, the children that the composite passes over are some of those at
that place in an earlier forest. -/
def holdsPlace (session : Session α) (ref : NodeRef) (earlier : Forest) :
    Event α → Bool
  | .tick _ _ => session.handler.blackboard.all fun board =>
    (session.forest.passed ref (board.resumePoint ref.hash)).all
      (· ∈ earlier.passed ref (board.resumePoint ref.hash))
  | _ => true

/-- What is known of the blackboard, if there is one. -/
def Assured (session : Session α) (ref : NodeRef) (earlier : Forest)
    (past : List Activity) : Prop :=
  ∀ board, session.handler.blackboard = some board →
    board.Assured ref earlier past

variable {session after : Session α} {ref : NodeRef} {earlier : Forest}
  {past : List Activity}

theorem told_of_report {fuel : Nat} {agent : α} {report : TickReport α}
    (ticked : Handler.tick fuel session.forest session.handler agent =
      some (.ok report)) :
    session.told (.tick fuel agent) = report.pass.log := by
  rw [told, ticked]
  rfl

theorem mem_passed_of_holdsPlace {fuel : Nat} {agent : α} {board : Blackboard}
    {child : NodeHash}
    (placed : session.holdsPlace ref earlier (.tick fuel agent) = true)
    (holds : session.handler.blackboard = some board)
    (member : child ∈ session.forest.passed ref (board.resumePoint ref.hash)) :
    child ∈ earlier.passed ref (board.resumePoint ref.hash) := by
  rw [holdsPlace, holds, Option.all_some, List.all_eq_true] at placed
  exact of_decide_eq_true (placed child member)

section Tick

variable {fuel : Nat} {agent : α} {report : TickReport α}
  (sound : session.woodland.Sound)
  (ticked : Handler.tick fuel session.forest session.handler agent =
    some (.ok report))
include sound ticked

theorem nested_of_report : Nested report.pass.log := by
  have wellFormed : session.forest.WellFormed := sound.wellFormed
  obtain ⟨board, tree, swept, holds, registered, sweeps, ended⟩ :=
    Handler.swept_of_report ticked
  obtain ⟨growth, visits⟩ := PassM.visits_of_tick wellFormed
    (wellFormed.located_root registered) ended
  rw [visits.log, sweeps]
  exact (quiet_sweep swept).nested.append visits.nested

/-- No node comes to a result before it is opened. -/
theorem opens_of_report (assured : session.Assured ref earlier past) :
    Opens past report.pass := by
  have wellFormed : session.forest.WellFormed := sound.wellFormed
  obtain ⟨board, tree, swept, holds, registered, sweeps, ended⟩ :=
    Handler.swept_of_report ticked
  have recedes := session.handler.recedes_rootPass wellFormed board agent
  have quiet := quiet_sweep swept
  have begins : Opens past
      (session.handler.rootPass session.forest board agent) := by
    refine ⟨fun hash running => ?_, fun ref member => ?_, ?_⟩
    · exact ((assured board holds).opened hash (recedes.running running)).append _
    · rw [sweeps] at member
      cases quiet _ member
    · rw [sweeps]
      apply Justified.of_free
      rintro _ member told ref status rfl
      cases quiet _ member
  exact begins.steps (PassM.steps_of_tick wellFormed
    (wellFormed.located_root registered) ended)

/-- What was known before a tick holds of a MemSequence throughout it. -/
theorem warrants_of_report {home : Tree} {composite : Node}
    (composed : session.forest.Located home composite)
    (isSequence : composite.kind = .memSequence)
    (assured : session.Assured (home.refTo composite) earlier past)
    (placed : session.holdsPlace (home.refTo composite) earlier
      (.tick fuel agent) = true)
    (single : reenters composite.hash 0 report.pass.log = false) :
    Warrants composite past report.pass := by
  have wellFormed : session.forest.WellFormed := sound.wellFormed
  have isScoped : session.forest.Scoped := sound.labelled.isScoped
  obtain ⟨board, tree, swept, holds, registered, sweeps, ended⟩ :=
    Handler.swept_of_report ticked
  have recedes := session.handler.recedes_rootPass wellFormed board agent
  have bypasses : Bypasses composite (sweep swept) := .of_sweep swept
  have begins : Warrants composite past
      (session.handler.rootPass session.forest board agent) := by
    refine ⟨?_, ?_, ?_⟩
    · exact Handler.rests_rootPass wellFormed agent (assured board holds).rests
    · rw [sweeps]
      apply bypasses.neutral.vouches
      intro child member
      apply (assured board holds).passed child
      apply mem_passed_of_holdsPlace placed holds
      rw [Forest.passed_eq composed isSequence]
      exact List.take_subset_take_left _
        (recedes.resumePoint_le composite.hash) member
    · rw [sweeps]
      exact justified_of_unfinished bypasses.unfinished
  obtain ⟨growth, log, nested, sustains⟩ := sustains_of_tick wellFormed isScoped
    composed isSequence (wellFormed.located_root registered)
    (isScoped.root_notMem_children wellFormed composed registered) ended
  rw [log, sweeps, reenters_append (quiet_sweep swept).nested,
    Bool.or_eq_false_iff] at single
  exact sustains single.2 begins

end Tick

theorem nested_told (sound : session.woodland.Sound) (event : Event α) :
    Nested (session.told event) := by
  cases event with
  | tick fuel agent =>
      rw [told]
      cases ticked : Handler.reported
          (Handler.tick fuel session.forest session.handler agent) with
      | none => exact .nil
      | some report =>
          exact nested_of_report sound (Handler.reported_eq_some_iff.mp ticked)
  | _ => exact .nil

variable [Agent α] {event : Event α} {events : List (Event α)}

/-- What the journals of the ticks of a history tell. -/
def journal (session : Session α) : List (Event α) → List Activity
  | [] => []
  | first :: rest =>
    session.told first ++
      (session.step first).elim [] fun after => after.journal rest

/-- At each tick of the history, the children that the composite passes over are
some of those at that place at the tick before. -/
def keepsPlace (session : Session α) (ref : NodeRef) (earlier : Forest) :
    List (Event α) → Bool
  | [] => true
  | first :: rest =>
    session.holdsPlace ref earlier first &&
      (session.step first).all fun after =>
        after.keepsPlace ref (session.latest earlier first) rest

/-- Each event keeps what is known, if it holds the place of the composite. -/
theorem assured_step (sound : session.woodland.Sound)
    (assured : session.Assured ref earlier past)
    (spared : session.disturbs ref.hash event = false)
    (placed : session.holdsPlace ref earlier event = true)
    (single : reenters ref.hash 0 (session.told event) = false)
    (stepped : session.step event = some after) :
    after.Assured ref (session.latest earlier event)
      (past ++ session.told event) := by
  have rests : after.Rests ref.hash :=
    rests_step sound (fun board holds => (assured board holds).rests) spared
      stepped
  cases event with
  | edit step =>
      obtain ⟨woodland, _, rfl⟩ := Option.map_eq_some_iff.mp stepped
      simp only [told, latest, List.append_nil]
      exact assured
  | setup agent selector override =>
      rw [step_setup] at stepped
      simp only [told, latest, List.append_nil]
      cases approved : session.handler.approve session.forest agent selector with
      | error cause =>
          rw [approved] at stepped
          exact Option.some.inj stepped ▸ assured
      | ok tree =>
          rw [approved] at stepped
          obtain rfl := Option.some.inj stepped
          intro board holds
          refine .of_idle ?_ (rests board holds)
          cases holds
          exact session.handler.idle_boundBoard _ _ _ _
  | tick fuel agent =>
      obtain ⟨outcome, ticked, rfl⟩ := Option.map_eq_some_iff.mp stepped
      cases outcome with
      | error cause =>
          have nothing : session.told (.tick fuel agent) = [] := by
            rw [told, ticked]
            rfl
          rw [nothing, List.append_nil]
          intro board holds
          have known := assured board holds
          refine ⟨known.rests, known.opened, fun child member => ?_⟩
          exact known.passed child (mem_passed_of_holdsPlace placed holds member)
      | ok report =>
          rw [told_of_report ticked] at single ⊢
          intro board holds
          refine ⟨rests board holds, ?_, fun child member => ?_⟩
          · cases holds
            exact (opens_of_report sound ticked assured).running
          · have wellFormed : session.forest.WellFormed := sound.wellFormed
            obtain ⟨home, composite, composed, rfl, isSequence⟩ :=
              wellFormed.of_mem_passed member
            cases holds
            rw [latest, Forest.passed_eq composed isSequence] at member
            exact (warrants_of_report sound ticked composed isSequence assured
              placed single).vouched child member
  | prune =>
      rw [← Option.some.inj stepped] at rests ⊢
      simp only [told, latest, List.append_nil]
      intro board holds
      obtain ⟨previous, held, rfl⟩ := Option.map_eq_some_iff.mp holds
      exact (assured previous held).recede (previous.recedes_pruneOrphans _)
        (rests _ holds)
  | share change =>
      rw [← Option.some.inj stepped] at rests ⊢
      simp only [told, latest, List.append_nil]
      intro board holds
      obtain ⟨previous, held, rfl⟩ := Option.map_eq_some_iff.mp holds
      exact (assured previous held).recede (fun _ => .inl rfl) (rests _ holds)

theorem nested_journal (sound : session.woodland.Sound) :
    Nested (session.journal events) := by
  induction events generalizing session with
  | nil => exact .nil
  | cons first rest induction =>
      rw [journal]
      refine (nested_told sound first).append ?_
      cases stepped : session.step first with
      | none => exact .nil
      | some after => exact induction (sound_step sound stepped)

/-- A history that keeps the place of the composite up to an event leads to a
session in which the event holds it, too. -/
theorem assured_run (sound : session.woodland.Sound)
    (assured : session.Assured ref earlier past)
    (spared : session.spares ref.hash events = true)
    (placed : session.keepsPlace ref earlier (events ++ [event]) = true)
    (single : reenters ref.hash 0 (session.journal events) = false)
    (ran : session.run events = some after) :
    ∃ forest, after.Assured ref forest (past ++ session.journal events) ∧
      after.holdsPlace ref forest event = true := by
  induction events generalizing session earlier past with
  | nil =>
      cases Option.some.inj ran
      rw [List.nil_append, keepsPlace, Bool.and_eq_true] at placed
      rw [journal, List.append_nil]
      exact ⟨earlier, assured, placed.1⟩
  | cons first rest induction =>
      obtain ⟨middle, stepped, ran⟩ := Option.bind_eq_some_iff.mp ran
      rw [spares, stepped, Option.all_some, Bool.and_eq_true,
        Bool.not_eq_true'] at spared
      rw [List.cons_append, keepsPlace, stepped, Option.all_some,
        Bool.and_eq_true] at placed
      rw [journal, stepped, Option.elim_some] at single ⊢
      rw [reenters_append (nested_told sound first), Bool.or_eq_false_iff]
        at single
      rw [← List.append_assoc]
      exact induction (sound_step sound stepped)
        (assured_step sound assured spared.1 placed.1 single.1 stepped) spared.2
        placed.2 single.2 ran

def Event.isSetup : Event α → Bool
  | .setup _ _ _ => true
  | _ => false

theorem disturbs_of_not_setup (noSetup : event.isSetup = false)
    (hash : NodeHash) : session.disturbs hash event = false := by
  cases event with
  | setup => cases noSetup
  | _ => rfl

/-- Only a setup puts a blackboard where there is none. -/
theorem blackboard_of_not_setup (noSetup : event.isSetup = false)
    (unbound : session.handler.blackboard = none)
    (stepped : session.step event = some after) :
    after.handler.blackboard = none := by
  cases event with
  | edit step =>
      obtain ⟨woodland, _, rfl⟩ := Option.map_eq_some_iff.mp stepped
      exact unbound
  | setup => cases noSetup
  | tick fuel agent =>
      obtain ⟨outcome, ticked, rfl⟩ := Option.map_eq_some_iff.mp stepped
      cases outcome with
      | error => exact unbound
      | ok report =>
          obtain ⟨board, holds⟩ := Handler.holds_of_tick ticked
          rw [unbound] at holds
          cases holds
  | prune =>
      rw [← Option.some.inj stepped, mapBoard, unbound]
      rfl
  | share change =>
      rw [← Option.some.inj stepped, mapBoard, unbound]
      rfl

theorem spares_of_no_setup (noSetup : events.countP Event.isSetup = 0)
    (hash : NodeHash) : session.spares hash events = true := by
  induction events generalizing session with
  | nil => rfl
  | cons first rest induction =>
      rw [List.countP_eq_zero] at noSetup
      have notFirst : first.isSetup = false := by
        simpa using noSetup first List.mem_cons_self
      rw [spares, disturbs_of_not_setup notFirst]
      cases stepped : session.step first with
      | none => rfl
      | some after =>
          apply induction
          rw [List.countP_eq_zero]
          exact fun event member => noSetup event (List.mem_cons_of_mem _ member)

/-- The first setup finds no blackboard, so it disturbs nothing. -/
theorem spares_of_one_setup (unbound : session.handler.blackboard = none)
    (once : events.countP Event.isSetup ≤ 1) (hash : NodeHash) :
    session.spares hash events = true := by
  induction events generalizing session with
  | nil => rfl
  | cons first rest induction =>
      have undisturbed : session.disturbs hash first = false := by
        cases first with
        | setup =>
            rw [disturbs, unbound]
            split <;> simp_all
        | _ => rfl
      rw [spares, undisturbed]
      cases stepped : session.step first with
      | none => rfl
      | some after =>
          cases isSetup : first.isSetup with
          | true =>
              rw [List.countP_cons_of_pos isSetup] at once
              exact spares_of_no_setup (by omega) hash
          | false =>
              rw [List.countP_cons_of_neg (by simp [isSetup])] at once
              exact induction (blackboard_of_not_setup isSetup unbound stepped)
                once

/-- Whatever edits stand between the ticks, a MemSequence that succeeds has been
opened, and since then the latest tick of each of its children has come to
`success`.  The children that it passes over at a tick must be some of those at
that place at the tick before, and no update of it may stand within another
one. -/
theorem successes_of_run {behaviors : Behaviors α} {config : HandlerConfig}
    (ran : (start behaviors config).run events = some session)
    (once : events.countP Event.isSetup ≤ 1) {home : Tree} {composite : Node}
    (composed : session.forest.Located home composite)
    (isSequence : composite.kind = .memSequence)
    {fuel : Nat} {agent : α} {report : TickReport α}
    (ticked : Handler.tick fuel session.forest session.handler agent =
      some (.ok report))
    (placed : (start behaviors config).keepsPlace (home.refTo composite) {}
      (events ++ [.tick fuel agent]) = true)
    (single : reenters composite.hash 0
      ((start behaviors config).journal events ++ report.pass.log) = false) :
    ∀ sooner rest,
      report.pass.log =
        sooner ++ .finished (home.refTo composite) .success :: rest →
      IsOpened composite.hash ((start behaviors config).journal events ++ sooner) ∧
        ∀ child ∈ composite.children,
          resultSinceOpened composite.hash child
            ((start behaviors config).journal events ++ sooner) =
              some .success := by
  have sound := sound_run Woodland.sound_empty ran
  have nothing : (start behaviors config).Assured (home.refTo composite) {} [] := by
    intro board holds
    cases holds
  rw [reenters_append (nested_journal Woodland.sound_empty),
    Bool.or_eq_false_iff] at single
  obtain ⟨forest, assured, placed⟩ := assured_run Woodland.sound_empty nothing
    (spares_of_one_setup rfl once composite.hash) placed single.1 ran
  rw [List.nil_append] at assured
  have opens := opens_of_report sound ticked assured
  have warrants := warrants_of_report sound ticked composed isSequence assured
    placed single.2
  intro sooner rest split
  refine ⟨opens.results sooner _ rest split _ _ rfl, fun child member => ?_⟩
  apply warrants.earned sooner _ rest split _ rfl rfl
  rwa [List.take_length]

/-- While the guard waits he is told to report when he has finished. -/
def order : List (Event UInt64) :=
  [.edit (.edit ⟨1⟩ (.add (.detached
      { name := "report", hash := some ⟨"report-1"⟩
        kind := .echoLeaf "report" true }) ⟨"work-1"⟩ none false)),
   .share (·.release "busy")]

/-- The guard goes on after the wait and reports, and has then done all his
work. -/
theorem work_done_with_report :
    ∃ (session : Session UInt64) (home : Tree) (work : Node)
      (report : TickReport UInt64) (sooner rest : List Activity),
      guard.run (dawn ++ order) = some session ∧
      session.forest.Located home work ∧ work.kind = .memSequence ∧
      work.children.length = 3 ∧
      Handler.tick 20 session.forest session.handler 0 = some (.ok report) ∧
      report.pass.log = sooner ++ .finished (home.refTo work) .success :: rest ∧
      .opened (home.refTo work) ∉ report.pass.log ∧
      IsOpened work.hash (guard.journal (dawn ++ order) ++ sooner) ∧
      ∀ child ∈ work.children,
        resultSinceOpened work.hash child
          (guard.journal (dawn ++ order) ++ sooner) = some .success := by
  have checked : (guard.run (dawn ++ order)).any (fun session =>
      (session.forest.get? ⟨1⟩).any fun home =>
      home.nodes[(⟨"work-1"⟩ : NodeHash)]?.any fun work =>
      (Handler.reported (Handler.tick 20 session.forest session.handler
        (0 : UInt64))).any fun report =>
        decide (work.kind = .memSequence) &&
          decide (work.children.length = 3) &&
          decide (.opened (home.refTo work) ∉ report.pass.log) &&
          decide (.finished (home.refTo work) .success ∈ report.pass.log) &&
          guard.keepsPlace (home.refTo work) {}
            (dawn ++ order ++ [.tick 20 0]) &&
          !reenters work.hash 0
            (guard.journal (dawn ++ order) ++ report.pass.log)) = true := by
    decide +kernel
  obtain ⟨session, home, work, ran, _, located, passed⟩ :=
    exists_located_of_run Woodland.sound_empty checked
  obtain ⟨report, ticked, passed⟩ := (Option.any_eq_true _ _).mp passed
  rw [Handler.reported_eq_some_iff] at ticked
  simp only [Bool.and_eq_true, decide_eq_true_eq, Bool.not_eq_true'] at passed
  obtain ⟨⟨⟨⟨⟨isSequence, three⟩, goesOn⟩, succeeds⟩, placed⟩, single⟩ := passed
  have once : (dawn ++ order).countP Event.isSetup ≤ 1 := by decide
  obtain ⟨sooner, rest, split⟩ := List.append_of_mem succeeds
  obtain ⟨isOpened, done⟩ := successes_of_run ran once located isSequence ticked
    placed single sooner rest split
  exact ⟨session, home, work, report, sooner, rest, ran, located, isSequence,
    three, ticked, split, goesOn, isOpened, done⟩

/-- What the guard has begun with is struck from his duties. -/
def relief : List (Event UInt64) :=
  [.edit (.edit ⟨1⟩ (.remove ⟨"begin-1"⟩))]

/-- Relieved while he waits, the guard is done with his work although he is still
waiting. -/
theorem work_done_while_waiting :
    ∃ (session : Session UInt64) (home : Tree) (work : Node) (wait : NodeHash)
      (report : TickReport UInt64) (sooner rest : List Activity),
      (dawn ++ relief).countP Event.isSetup ≤ 1 ∧
      guard.run (dawn ++ relief) = some session ∧
      session.forest.Located home work ∧ work.kind = .memSequence ∧
      Handler.tick 20 session.forest session.handler 0 = some (.ok report) ∧
      reenters work.hash 0 (guard.journal (dawn ++ relief) ++ report.pass.log) =
        false ∧
      report.pass.log = sooner ++ .finished (home.refTo work) .success :: rest ∧
      wait ∈ work.children ∧
      resultSinceOpened work.hash wait (guard.journal (dawn ++ relief) ++ sooner) =
        some .running := by
  have checked : (guard.run (dawn ++ relief)).any (fun session =>
      (session.forest.get? ⟨1⟩).any fun home =>
      home.nodes[(⟨"work-1"⟩ : NodeHash)]?.any fun work =>
      (Handler.reported (Handler.tick 20 session.forest session.handler
        (0 : UInt64))).any fun report =>
        let ended := Activity.finished (home.refTo work) .success
        decide (work.kind = .memSequence) &&
          !reenters work.hash 0
            (guard.journal (dawn ++ relief) ++ report.pass.log) &&
          decide ((report.pass.log.dropWhile (· ≠ ended)).head? = some ended) &&
          decide (⟨"wait-1"⟩ ∈ work.children) &&
          decide (resultSinceOpened work.hash ⟨"wait-1"⟩
            (guard.journal (dawn ++ relief) ++
              report.pass.log.takeWhile (· ≠ ended)) = some .running)) =
      true := by
    decide +kernel
  obtain ⟨session, home, work, ran, _, located, passed⟩ :=
    exists_located_of_run Woodland.sound_empty checked
  obtain ⟨report, ticked, passed⟩ := (Option.any_eq_true _ _).mp passed
  rw [Handler.reported_eq_some_iff] at ticked
  simp only [Bool.and_eq_true, decide_eq_true_eq, Bool.not_eq_true'] at passed
  obtain ⟨⟨⟨⟨isSequence, single⟩, succeeds⟩, isChild⟩, waits⟩ := passed
  obtain ⟨rest, isRest⟩ := List.head?_eq_some_iff.mp succeeds
  refine ⟨session, home, work, ⟨"wait-1"⟩, report, _, rest, by decide, ran,
    located, isSequence, ticked, single, ?_, isChild, waits⟩
  rw [← isRest, List.takeWhile_append_dropWhile]

end Session

end BehaviorTree
