import BehaviorTree.Proofs.Grove
import BehaviorTree.Proofs.Handler.Setup
import BehaviorTree.Proofs.Handler.Ticking
import BehaviorTree.Proofs.Pass.Running

/-!
# Runs of ticks

Ticks on one blackboard, each with any behaviours, any configuration and any
agent.  A node that came to `running` stays flagged until it is updated again;
if it is not updated in the next tick, the tick after that abandons it.
-/

namespace BehaviorTree

open BehaviorTree.Pass

variable {α : Type} {forest : Forest}

/-- The invariant of a blackboard between ticks. -/
structure Blackboard.Settled (forest : Forest) (board : Blackboard) : Prop where
  distinctNow : board.runningNow.Nodup
  distinctPre : board.runningPre.Nodup
  flagged : ∀ {hash : NodeHash} {state : NodeState},
    board.states[hash]? = some state → state.running = true →
    ∃ tree node, forest.Located tree node ∧ node.hash = hash ∧
      state.kind.fits node.kind = true ∧
      tree.refTo node ∈ board.runningNow ++ board.runningPre

theorem Blackboard.Idle.settled {board : Blackboard} (idle : board.Idle) :
    board.Settled forest where
  distinctNow := idle.runningNow ▸ List.nodup_nil
  distinctPre := idle.runningPre ▸ List.nodup_nil
  flagged present running := by
    rw [idle.unflagged present] at running
    cases running

theorem Blackboard.mem_notRevisited {board : Blackboard} {ref : NodeRef} :
    ref ∈ board.notRevisited ↔
      ref ∈ board.runningPre ∧ ref ∉ board.runningNow := by
  simp [notRevisited]

namespace Pass

theorem mem_sweep {refs : List NodeRef} {activity : Activity} :
    activity ∈ sweep refs ↔
      ∃ ref ∈ refs, activity = .abandoned ref ∨ activity = .closed ref := by
  simp [sweep]

theorem Tracks.settled {initially : NodeHash → Bool} {earlier : List NodeRef}
    {pass : Pass α} (tracks : Tracks forest initially earlier pass)
    (distinct : earlier.Nodup) : pass.board.Settled forest where
  distinctNow := tracks.distinct
  distinctPre := tracks.runningPre ▸ distinct
  flagged present running := by
    rw [tracks.runningPre]
    exact tracks.flagged present running

end Pass

/-- The flags with which the nodes of a tick start: those of the blackboard
without the abandoned ones. -/
def Blackboard.keptFlags (board : Blackboard) (swept : List NodeRef)
    (hash : NodeHash) : Bool :=
  board.isRunning hash && swept.all (·.hash ≠ hash)

theorem Blackboard.keptFlags_of_swept (board : Blackboard)
    {swept : List NodeRef} {ref : NodeRef} (member : ref ∈ swept) :
    board.keptFlags swept ref.hash = false := by
  have dropped : swept.all (·.hash ≠ ref.hash) = false := by
    rw [List.all_eq_false]
    exact ⟨ref, member, by simp⟩
  rw [keptFlags, dropped, Bool.and_false]

/-- What one tick does: it abandons `swept` and goes on from the root. -/
structure Handler.Turns (forest : Forest) (board : Blackboard)
    (report : TickReport α) (swept : List NodeRef) (growth : List Activity) :
    Prop where
  tracks : Tracks forest (board.keptFlags swept) board.runningNow report.pass
  log : report.pass.log = sweep swept ++ growth
  kept : ∀ ref, .abandoned ref ∉ growth
  rootFirst : ∃ root, forest.isTreeRoot root = true ∧
    (growth.head? = some (.entered root) ∨ growth.head? = some (.refused root))
  distinct : swept.Nodup
  swept : ∀ {ref : NodeRef}, ref ∈ swept ↔
    ref ∈ board.notRevisited ∧ forest.Knows ref ∧
      board.isRunning ref.hash = true

theorem Forest.Scoped.ref_eq (isScoped : forest.Scoped) {first second : NodeRef}
    (firstKnown : forest.Knows first) (secondKnown : forest.Knows second)
    (same : second.hash = first.hash) : second = first := by
  obtain ⟨tree, node, located, rfl⟩ := firstKnown
  obtain ⟨other, found, foundLocated, rfl⟩ := secondKnown
  obtain ⟨rfl, rfl⟩ := isScoped.unique located foundLocated same
  rfl

namespace Handler

variable {board : Blackboard}

section Abandoning

variable {start cleared : Pass α} {swept : List NodeRef}
  (begins : start.board = board.beginTick)
  (abandons : Abandons forest board.notRevisited swept start cleared)
include begins abandons

theorem isRunning_of_abandons (hash : NodeHash) :
    cleared.board.isRunning hash = board.keptFlags swept hash := by
  by_cases absent : ∀ ref ∈ swept, ref.hash ≠ hash
  · have all : swept.all (·.hash ≠ hash) = true := by
      simpa using absent
    rw [Blackboard.keptFlags, all, Bool.and_true]
    apply Blackboard.isRunning_congr
    rw [abandons.elsewhere absent, begins]
    rfl
  · push Not at absent
    obtain ⟨ref, member, rfl⟩ := absent
    rw [board.keptFlags_of_swept member, abandons.cleared ref member]

/-- A flagged node that is not abandoned ran in the tick before. -/
theorem flagged_of_abandons (settled : board.Settled forest) {hash : NodeHash}
    {state : NodeState} (present : cleared.board.states[hash]? = some state)
    (running : state.running = true) :
    ∃ tree node, forest.Located tree node ∧ node.hash = hash ∧
      state.kind.fits node.kind = true ∧
      tree.refTo node ∈ board.runningNow := by
  have absent : ∀ ref ∈ swept, ref.hash ≠ hash := by
    intro ref member same
    subst same
    have isCleared := abandons.cleared ref member
    rw [Blackboard.isRunning_eq present, running] at isCleared
    cases isCleared
  rw [abandons.elsewhere absent] at present
  have presentBefore : board.states[hash]? = some state := by
    rw [begins] at present
    exact present
  obtain ⟨tree, node, located, sameHash, fits, listed⟩ :=
    settled.flagged presentBefore running
  refine ⟨tree, node, located, sameHash, fits, ?_⟩
  by_contra notRunning
  have wasRunning : tree.refTo node ∈ board.runningPre :=
    (List.mem_append.mp listed).resolve_left notRunning
  have isFlagged : start.board.isRunning node.hash = true := by
    rw [Blackboard.isRunning_eq (sameHash.symm ▸ present), running]
  obtain ⟨other, member, same⟩ := abandons.complete (tree.refTo node)
    (Blackboard.mem_notRevisited.mpr ⟨wasRunning, notRunning⟩)
    ⟨tree, node, located, rfl⟩ isFlagged
  exact absent other member (same.trans sameHash)

/-- After abandoning, a pass starts with the flags that were kept. -/
theorem tracks_of_abandons (settled : board.Settled forest)
    (quiet : start.log = []) :
    Tracks forest (board.keptFlags swept) board.runningNow cleared := by
  have log : cleared.log = sweep swept := by
    rw [abandons.log, quiet, List.nil_append]
  have runningNow : cleared.board.runningNow = [] := by
    rw [abandons.runningNow, begins]
    rfl
  refine
    { runningPre := by rw [abandons.runningPre, begins]; rfl
      distinct := by rw [runningNow]; exact List.nodup_nil
      noted := by intro ref; simp [runningNow, log, mem_sweep]
      flag := ?_
      flagged := ?_
      known := by intro ref; simp [log, mem_sweep]
      updated := by intro ref status; simp [log, mem_sweep]
      closed := by intro ref; simp [log, mem_sweep]
      opensFirst := ?_ }
  · intro tree node _
    have unfinished : lastResult (tree.refTo node) cleared.log = none := by
      rw [lastResult_eq_none_iff, log]
      simp [mem_sweep]
    rw [unfinished, isRunning_of_abandons begins abandons]
    rfl
  · intro hash state present running
    rw [runningNow, List.nil_append]
    exact flagged_of_abandons begins abandons settled present running
  · intro earlier later ref split
    have member : .entered ref ∈ cleared.log :=
      split ▸ List.mem_append_right _ List.mem_cons_self
    simp [log, mem_sweep] at member

end Abandoning

theorem pass_of_tick {fuel : Nat} {handler : Handler α} {agent : α}
    {report : TickReport α} (holds : handler.blackboard = some board)
    (ticked : tick fuel forest handler agent = some (.ok report)) :
    ∃ (setting : Setting α) (tree : Tree) (start : Pass α),
      setting.forest = forest ∧ forest.get? board.tree = some tree ∧
      start.log = [] ∧ start.board = board.beginTick ∧
      PassM.tick setting fuel tree tree.rootNode
        (start.abandonEach setting board.notRevisited) =
        some (report.status, report.pass) := by
  obtain ⟨tree, registered, rooted⟩ := (tick_eq_ok_iff holds).mp ticked
  exact ⟨handler.setting forest, tree, { agent, board := board.beginTick }, rfl,
    registered, rfl, rfl, rooted⟩

/-- A tick on a settled blackboard abandons the flagged nodes that were not
revisited, and goes on from the root. -/
theorem turns_of_tick (wellFormed : forest.WellFormed)
    (isScoped : forest.Scoped) (settled : board.Settled forest) {fuel : Nat}
    {handler : Handler α} {agent : α} {report : TickReport α}
    (holds : handler.blackboard = some board)
    (ticked : tick fuel forest handler agent = some (.ok report)) :
    ∃ swept growth, Turns forest board report swept growth := by
  obtain ⟨setting, tree, start, rfl, registered, quiet, begins, rooted⟩ :=
    pass_of_tick holds ticked
  obtain ⟨swept, abandons⟩ :=
    abandons_abandonEach wellFormed board.notRevisited start
  have located := wellFormed.located_root registered
  have tracks := tracks_of_abandons begins abandons settled quiet
  have steps := PassM.steps_of_tick wellFormed located rooted
  obtain ⟨growth, log, kept, firstEntry⟩ :=
    PassM.begins_of_tick wellFormed located rooted
  refine ⟨swept, growth,
    { tracks := tracks.steps isScoped steps
      log := ?_
      kept := kept
      rootFirst := ⟨tree.refTo tree.rootNode, ?_, firstEntry⟩
      distinct := ?_
      swept := ?_ }⟩
  · rw [log, abandons.log, quiet, List.nil_append]
  · have inForest : setting.forest.get? tree.id = some tree := located.inForest
    simp [Forest.isTreeRoot, Tree.refTo, inForest,
      wellFormed.hash_rootNode registered]
  · exact abandons.among.nodup (settled.distinctPre.filter _)
  · intro ref
    have states : start.board.states = board.states := by
      rw [begins]
      rfl
    constructor
    · intro member
      obtain ⟨known, flagged⟩ := abandons.flagged ref member
      rw [Blackboard.isRunning, states] at flagged
      exact ⟨abandons.among.subset member, known, flagged⟩
    · rintro ⟨member, known, flagged⟩
      obtain ⟨other, isSwept, same⟩ := abandons.complete ref member known
        (by rw [Blackboard.isRunning, states]; exact flagged)
      obtain ⟨otherKnown, _⟩ := abandons.flagged other isSwept
      exact isScoped.ref_eq known otherKnown same ▸ isSwept

/-- Ticks one after the other, each on the blackboard that the one before it
left. -/
inductive Run (forest : Forest) : Blackboard → List (TickReport α) → Prop where
  | done {board : Blackboard} : Run forest board []
  | tick {board : Blackboard} {fuel : Nat} {handler : Handler α} {agent : α}
      {report : TickReport α} {later : List (TickReport α)} :
      handler.blackboard = some board →
      tick fuel forest handler agent = some (.ok report) →
      Run forest report.pass.board later →
      Run forest board (report :: later)

/-- A blackboard with the tick that left it, or without any tick since setup. -/
inductive Reached (forest : Forest) :
    Option (TickReport α) → Blackboard → Prop where
  | idle {board : Blackboard} : board.Idle → Reached forest none board
  | turned {board : Blackboard} {report : TickReport α} {swept : List NodeRef}
      {growth : List Activity} :
      board.Settled forest →
      Turns forest board report swept growth →
      Reached forest (some report) report.pass.board

namespace Reached

variable {latest : Option (TickReport α)}

theorem settled (reached : Reached forest latest board) :
    board.Settled forest := by
  cases reached with
  | idle idle => exact idle.settled
  | turned settled turns => exact turns.tracks.settled settled.distinctNow

/-- The nodes that are flagged and were running in the latest tick are those
that came to `running` last. -/
theorem carried_iff (reached : Reached forest latest board) {ref : NodeRef}
    (known : forest.Knows ref) :
    (board.isRunning ref.hash = true ∧ ref ∈ board.runningNow) ↔
      ∃ report, latest = some report ∧
        lastResult ref report.pass.log = some .running := by
  cases reached with
  | idle idle => simp [idle.runningNow]
  | turned settled turns =>
      obtain ⟨tree, node, located, rfl⟩ := known
      have flag := turns.tracks.flag located
      constructor
      · intro ⟨flagged, running⟩
        have finished := turns.tracks.noted.mp running
        refine ⟨_, rfl, ?_⟩
        cases last : lastResult (tree.refTo node) _ with
        | none => exact absurd finished (lastResult_eq_none_iff.mp last _)
        | some status =>
            rw [last] at flag
            have isRunning := flag.symm.trans flagged
            simpa using isRunning
      · rintro ⟨_, ⟨⟩, last⟩
        rw [last] at flag
        refine ⟨flag.trans (by simp), ?_⟩
        exact turns.tracks.noted.mpr (finished_of_lastResult last)

/-- What the next tick keeps flagged came to `running` in the latest one. -/
theorem keptFlags_iff (reached : Reached forest latest board)
    (isScoped : forest.Scoped) {report : TickReport α} {swept : List NodeRef}
    {growth : List Activity} (turns : Turns forest board report swept growth)
    {ref : NodeRef} (known : forest.Knows ref) :
    board.keptFlags swept ref.hash = true ↔
      ∃ earlier, latest = some earlier ∧
        lastResult ref earlier.pass.log = some .running := by
  rw [← reached.carried_iff known, Blackboard.keptFlags, Bool.and_eq_true]
  apply and_congr_right
  intro flagged
  constructor
  · intro absent
    by_contra notRunning
    have wasRunning : ref ∈ board.runningPre := by
      cases present : board.states[ref.hash]? with
      | none => simp [Blackboard.isRunning, present] at flagged
      | some state =>
          rw [Blackboard.isRunning_eq present] at flagged
          obtain ⟨tree, node, located, same, _, isListed⟩ :=
            reached.settled.flagged present flagged
          have sameRef : tree.refTo node = ref :=
            isScoped.ref_eq known ⟨tree, node, located, rfl⟩ same
          rw [sameRef] at isListed
          exact (List.mem_append.mp isListed).resolve_left notRunning
    have member : ref ∈ swept := turns.swept.mpr
      ⟨Blackboard.mem_notRevisited.mpr ⟨wasRunning, notRunning⟩, known,
        flagged⟩
    have different := List.all_eq_true.mp absent ref member
    simp at different
  · intro running
    rw [List.all_eq_true]
    intro other member
    obtain ⟨notRevisited, otherKnown, _⟩ := turns.swept.mp member
    rw [decide_eq_true_iff]
    intro same
    rw [isScoped.ref_eq known otherKnown same] at notRevisited
    exact (Blackboard.mem_notRevisited.mp notRevisited).2 running

end Reached

theorem Turns.knows_of_lastResult {board : Blackboard} {report : TickReport α}
    {swept : List NodeRef} {growth : List Activity}
    (turns : Turns forest board report swept growth) {ref : NodeRef}
    {status : Status} (last : lastResult ref report.pass.log = some status) :
    forest.Knows ref :=
  turns.tracks.known (turns.tracks.updated (finished_of_lastResult last))

theorem Turns.flag_of_idle {board : Blackboard} {report : TickReport α}
    {swept : List NodeRef} {growth : List Activity}
    (turns : Turns forest board report swept growth) {ref : NodeRef}
    (known : forest.Knows ref) (skipped : .entered ref ∉ report.pass.log) :
    report.pass.board.isRunning ref.hash = board.keptFlags swept ref.hash := by
  obtain ⟨tree, node, located, rfl⟩ := known
  have flag := turns.tracks.flag located
  have unfinished : lastResult (tree.refTo node) report.pass.log = none :=
    lastResult_eq_none_iff.mpr fun status member =>
      skipped (turns.tracks.updated member)
  rw [unfinished] at flag
  exact flag

section Consecutive

variable {first second third : TickReport α}
  {firstSwept secondSwept thirdSwept : List NodeRef}
  {firstGrowth secondGrowth thirdGrowth : List Activity} {ref : NodeRef}
  (settled : board.Settled forest)
  (firstTurns : Turns forest board first firstSwept firstGrowth)
  (secondTurns : Turns forest first.pass.board second secondSwept secondGrowth)
  (last : lastResult ref first.pass.log = some .running)
  (skipped : .entered ref ∉ second.pass.log)
include settled firstTurns secondTurns last skipped

theorem flagged_of_skipped (isScoped : forest.Scoped) :
    second.pass.board.isRunning ref.hash = true := by
  have known := firstTurns.knows_of_lastResult last
  rw [secondTurns.flag_of_idle known skipped,
    (Reached.turned settled firstTurns).keptFlags_iff isScoped secondTurns known]
  exact ⟨first, rfl, last⟩

omit settled in
/-- It is neither abandoned nor closed in that tick. -/
theorem open_of_skipped :
    .abandoned ref ∉ second.pass.log ∧ .closed ref ∉ second.pass.log := by
  have running : ref ∈ first.pass.board.runningNow :=
    firstTurns.tracks.noted.mpr (finished_of_lastResult last)
  have notAbandoned : .abandoned ref ∉ second.pass.log := by
    intro member
    rw [secondTurns.log] at member
    rcases List.mem_append.mp member with member | member
    · have isSwept : ref ∈ secondSwept := by
        simpa [mem_sweep] using member
      have notRevisited := (secondTurns.swept.mp isSwept).1
      simp [Blackboard.notRevisited, running] at notRevisited
    · exact secondTurns.kept ref member
  refine ⟨notAbandoned, fun member => ?_⟩
  rcases secondTurns.tracks.closed member with entered | abandoned
  · exact skipped entered
  · exact notAbandoned abandoned

theorem swept_of_skipped (isScoped : forest.Scoped)
    (thirdTurns : Turns forest second.pass.board third thirdSwept thirdGrowth) :
    thirdSwept.count ref = 1 := by
  have flagged := flagged_of_skipped settled firstTurns secondTurns last skipped
    isScoped
  have wasRunning : ref ∈ second.pass.board.runningPre := by
    rw [secondTurns.tracks.runningPre]
    exact firstTurns.tracks.noted.mpr (finished_of_lastResult last)
  have notRunning : ref ∉ second.pass.board.runningNow := by
    intro running
    exact skipped
      (secondTurns.tracks.updated (secondTurns.tracks.noted.mp running))
  refine List.count_eq_one_of_mem thirdTurns.distinct (thirdTurns.swept.mpr ?_)
  exact ⟨Blackboard.mem_notRevisited.mpr ⟨wasRunning, notRunning⟩,
    firstTurns.knows_of_lastResult last, flagged⟩

end Consecutive

theorem Run.next (wellFormed : forest.WellFormed) (isScoped : forest.Scoped)
    (settled : board.Settled forest) {report : TickReport α}
    {later : List (TickReport α)} (run : Run forest board (report :: later)) :
    ∃ swept growth, Turns forest board report swept growth ∧
      Run forest report.pass.board later := by
  cases run with
  | tick holds ticked later =>
      obtain ⟨swept, growth, turns⟩ :=
        turns_of_tick wellFormed isScoped settled holds ticked
      exact ⟨swept, growth, turns, later⟩

/-- Every tick of a run turns a blackboard that was reached by the tick before
it, if there was one. -/
theorem Run.turns (wellFormed : forest.WellFormed) (isScoped : forest.Scoped)
    {latest : Option (TickReport α)} (reached : Reached forest latest board)
    {earlier later : List (TickReport α)} {report : TickReport α}
    (run : Run forest board (earlier ++ report :: later)) :
    ∃ between swept growth,
      Reached forest (earlier.getLast?.or latest) between ∧
      Turns forest between report swept growth ∧
      Run forest report.pass.board later := by
  induction earlier generalizing board latest with
  | nil =>
      obtain ⟨swept, growth, turns, later⟩ :=
        run.next wellFormed isScoped reached.settled
      exact ⟨board, swept, growth, reached, turns, later⟩
  | cons first earlier induction =>
      obtain ⟨_, _, turns, rest⟩ := run.next wellFormed isScoped reached.settled
      obtain ⟨between, swept, growth, reached, turns, later⟩ :=
        induction (.turned reached.settled turns) rest
      refine ⟨between, swept, growth, ?_, turns, later⟩
      cases earlier with
      | nil => exact reached
      | cons second earlier =>
          rw [List.getLast?_cons_cons]
          rw [List.getLast?_cons, Option.some_or] at reached ⊢
          exact reached

/-- A tick abandons a node once, before it ticks the root, and the node is not
flagged afterwards unless it is updated again. -/
structure AbandonsOnce (forest : Forest) (ref : NodeRef)
    (report : TickReport α) : Prop where
  abandoned : ∃ swept growth, report.pass.log = sweep swept ++ growth ∧
    swept.count ref = 1 ∧ (∀ other, .abandoned other ∉ growth) ∧
    ∃ root, forest.isTreeRoot root = true ∧
      (growth.head? = some (.entered root) ∨
        growth.head? = some (.refused root))
  unflagged : .entered ref ∉ report.pass.log →
    report.pass.board.isRunning ref.hash = false

theorem Turns.abandonsOnce {board : Blackboard} {report : TickReport α}
    {swept : List NodeRef} {growth : List Activity}
    (turns : Turns forest board report swept growth) {ref : NodeRef}
    (once : swept.count ref = 1) : AbandonsOnce forest ref report where
  abandoned := ⟨swept, growth, turns.log, once, turns.kept, turns.rootFirst⟩
  unflagged skipped := by
    have member : ref ∈ swept := List.count_pos_iff.mp (by omega)
    have known := (turns.swept.mp member).2.1
    rw [turns.flag_of_idle known skipped, board.keptFlags_of_swept member]

/-- In every run of ticks after a setup, flagged nodes are listed as running and
none is listed twice; a node that came to `running` and is skipped by the next
tick stays flagged and open in it, and is abandoned once in the tick after; and
the first update of a node in a tick goes on without opening it exactly if the
node came to `running` last in the tick before. -/
theorem running_nodes_of_run [Agent α] (wellFormed : forest.WellFormed)
    (isScoped : forest.Scoped) {agent : α} {selector : Option TreeSelector}
    {override : Bool} {id : TreeId} {previous handler : Handler α}
    (bound : (setup forest agent selector override).run previous =
      .ok id handler)
    (holds : handler.blackboard = some board)
    {reports : List (TickReport α)} (run : Run forest board reports) :
    (∀ report ∈ reports, report.pass.board.runningNow.Nodup ∧
      ∀ hash state, report.pass.board.states[hash]? = some state →
        state.running = true →
        ∃ ref ∈ report.pass.board.runningNow ++ report.pass.board.runningPre,
          ref.hash = hash) ∧
    (∀ earlier first second later ref,
      reports = earlier ++ first :: second :: later →
      lastResult ref first.pass.log = some .running →
      .entered ref ∉ second.pass.log →
      second.pass.board.isRunning ref.hash = true ∧
      (.abandoned ref ∉ second.pass.log ∧ .closed ref ∉ second.pass.log) ∧
      ∀ third ∈ later.head?, AbandonsOnce forest ref third) ∧
    (∀ earlier report later ref sooner rest,
      reports = earlier ++ report :: later →
      report.pass.log = sooner ++ .entered ref :: rest →
      .entered ref ∉ sooner →
      (rest.head? ≠ some (.opened ref) ↔
        ∃ latest, earlier.getLast? = some latest ∧
          lastResult ref latest.pass.log = some .running)) := by
  have reached : Reached forest (none : Option (TickReport α)) board := by
    obtain ⟨found, isBoard, idle⟩ := idle_of_setup bound
    rw [holds] at isBoard
    cases isBoard
    exact .idle idle
  refine ⟨?_, ?_, ?_⟩
  · intro report member
    obtain ⟨earlier, later, rfl⟩ := List.append_of_mem member
    obtain ⟨between, swept, growth, _, turns, _⟩ :=
      run.turns wellFormed isScoped reached
    refine ⟨turns.tracks.distinct, fun hash state present running => ?_⟩
    obtain ⟨tree, node, _, same, _, isListed⟩ :=
      turns.tracks.flagged present running
    rw [turns.tracks.runningPre]
    exact ⟨tree.refTo node, isListed, same⟩
  · intro earlier first second later ref split last skipped
    subst split
    obtain ⟨between, _, _, reached, firstTurns, run⟩ :=
      run.turns wellFormed isScoped reached
    have settled := reached.settled
    have firstSettled := (Reached.turned settled firstTurns).settled
    obtain ⟨_, _, secondTurns, run⟩ := run.next wellFormed isScoped firstSettled
    have secondSettled := (Reached.turned firstSettled secondTurns).settled
    refine ⟨flagged_of_skipped settled firstTurns secondTurns last skipped
        isScoped,
      open_of_skipped firstTurns secondTurns last skipped, ?_⟩
    intro third isNext
    obtain ⟨latest, rfl⟩ := List.head?_eq_some_iff.mp isNext
    obtain ⟨_, _, thirdTurns, _⟩ := run.next wellFormed isScoped secondSettled
    exact thirdTurns.abandonsOnce (swept_of_skipped settled firstTurns
      secondTurns last skipped isScoped thirdTurns)
  · intro earlier report later ref sooner rest split isLog first
    subst split
    obtain ⟨between, swept, growth, reached, turns, _⟩ :=
      run.turns wellFormed isScoped reached
    rw [Option.or_none] at reached
    have known : forest.Knows ref := by
      apply turns.tracks.known
      rw [isLog]
      exact List.mem_append_right _ List.mem_cons_self
    have opens := turns.tracks.opensFirst _ _ _ isLog first
    rw [← reached.keptFlags_iff isScoped turns known, ne_eq, opens,
      Bool.not_eq_false]

/-- Ticks a handler for one agent after the other. -/
def tickEach (fuel : Nat) (forest : Forest) (handler : Handler α) :
    List α → Option (List (TickReport α))
  | [] => some []
  | agent :: rest =>
    match tick fuel forest handler agent with
    | some (.ok report) =>
      (tickEach fuel forest
        { handler with blackboard := some report.pass.board } rest).map
        (report :: ·)
    | _ => none

theorem run_of_tickEach {fuel : Nat} {handler : Handler α} {agents : List α}
    {reports : List (TickReport α)}
    (holds : handler.blackboard = some board)
    (ticked : tickEach fuel forest handler agents = some reports) :
    Run forest board reports := by
  induction agents generalizing handler board reports with
  | nil =>
      cases ticked
      exact .done
  | cons agent rest induction =>
      rw [tickEach] at ticked
      split at ticked
      · next report ran =>
          obtain ⟨later, lateTicks, rfl⟩ := Option.map_eq_some_iff.mp ticked
          exact .tick holds ran (induction rfl lateTicks)
      · cases ticked

/-- A watchman that rests, in two ticks, unless there is an alarm. -/
def watch : Subtree :=
  { name := "watch", hash := some ⟨"watch-1"⟩, kind := .selector
    children :=
      [{ name := "alarm", hash := some ⟨"alarm-1"⟩, kind := .condition "alarm" },
       { name := "rest", hash := some ⟨"rest-1"⟩, kind := .repeater 2
         children :=
           [{ name := "sit", hash := some ⟨"sit-1"⟩
              kind := .echoLeaf "sit" true }] }] }

def watchSteps : List Grove.Step :=
  [.build ⟨1⟩ "watch" {},
   .edit 0 (.add (.detached watch) (Tree.build ⟨1⟩ "watch" {}).root none false)]

/-- Numbers other than zero are agents under alarm. -/
def watchman : Handler UInt64 :=
  { behaviors := ({} : Behaviors UInt64).withCondition "alarm"
      (reading fun agent _ => agent ≠ 0) }

/-- The rest that an alarm interrupts is abandoned in the tick after. -/
theorem rest_abandoned :
    ∃ (forest : Forest) (reports : List (TickReport UInt64)),
      (∃ id handler board,
        (setup forest (0 : UInt64) (some (.byId ⟨1⟩)) false).run watchman =
          .ok id handler ∧
        handler.blackboard = some board ∧ Run forest board reports) ∧
      ∃ third ∈ reports[2]?,
        AbandonsOnce forest ⟨⟨1⟩, ⟨"rest-1"⟩⟩ third := by
  have checked : (Grove.run [] watchSteps).any (fun grove =>
      let forest := Forest.ofTrees grove
      let rest : NodeRef := ⟨⟨1⟩, ⟨"rest-1"⟩⟩
      decide forest.Scoped &&
      (SetupM.outcome ((setup forest (0 : UInt64) (some (.byId ⟨1⟩)) false).run
        watchman)).any fun bound =>
        (tickEach 20 forest bound.2 [0, 1, 0]).any fun reports =>
          decide (reports.length = 3) &&
          (reports[0]?.any (lastResult rest ·.pass.log = some .running) &&
            reports[1]?.any (.entered rest ∉ ·.pass.log))) = true := by
    decide +kernel
  obtain ⟨grove, built, passed⟩ := (Option.any_eq_true _ _).mp checked
  have empty : Grove.WellFormed [] := by
    intro tree member
    cases member
  have wellFormed : (Forest.ofTrees grove).WellFormed :=
    .ofTrees (Grove.run_wellFormed empty built)
  obtain ⟨scopes, passed⟩ := Bool.and_eq_true_iff.mp passed
  have isScoped := of_decide_eq_true scopes
  obtain ⟨⟨id, handler⟩, bound, passed⟩ := (Option.any_eq_true _ _).mp passed
  rw [SetupM.outcome_eq_some_iff] at bound
  obtain ⟨board, holds, _⟩ := idle_of_setup bound
  obtain ⟨reports, ticked, passed⟩ := (Option.any_eq_true _ _).mp passed
  obtain ⟨three, passed⟩ := Bool.and_eq_true_iff.mp passed
  obtain ⟨last, skipped⟩ := Bool.and_eq_true_iff.mp passed
  obtain ⟨first, second, third, rfl⟩ :=
    List.length_eq_three.mp (of_decide_eq_true three)
  have run := run_of_tickEach holds ticked
  have skips := (running_nodes_of_run wellFormed isScoped bound holds
    run).2.1 [] first second [third] _ rfl (of_decide_eq_true last)
    (of_decide_eq_true skipped)
  exact ⟨_, _, ⟨id, handler, board, bound, holds, run⟩, third, rfl,
    skips.2.2 third rfl⟩

end Handler

end BehaviorTree
