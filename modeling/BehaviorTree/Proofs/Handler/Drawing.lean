import BehaviorTree.Proofs.Handler.Run
import BehaviorTree.Proofs.Pass.Drawing
import BehaviorTree.Proofs.Pass.Halting

/-!
# Draws in runs

Each update of a Prob composite draws a child at most once, in all the ticks
after a setup, as long as no update of the composite comes to `running` within
another one.  A tick halts if it has a step budget, or if no Prob composite
leads back to itself through a Parallel.
-/

namespace BehaviorTree

open BehaviorTree.Pass

variable {α : Type} {forest : Forest} {board : Blackboard}

theorem Blackboard.Idle.tidy (idle : board.Idle) (hash : NodeHash) :
    board.Tidy hash := by
  intro state present running
  rw [idle.unflagged present] at running
  cases running

namespace Pass

theorem quiet_sweep (refs : List NodeRef) : Quiet (sweep refs) := by
  intro activity member
  obtain ⟨ref, _, rfl | rfl⟩ := mem_sweep.mp member
  · rfl
  · rfl

theorem Abandons.tidy {refs swept : List NodeRef} {before after : Pass α}
    {hash : NodeHash} (abandons : Abandons forest refs swept before after)
    (tidy : before.board.Tidy hash) : after.board.Tidy hash := by
  by_cases absent : ∀ ref ∈ swept, ref.hash ≠ hash
  · exact Blackboard.tidy_congr (abandons.elsewhere absent) tidy
  · push Not at absent
    obtain ⟨ref, member, rfl⟩ := absent
    intro state present running
    have cleared := abandons.cleared ref member
    rw [Blackboard.isRunning_eq present, running] at cleared
    cases cleared

end Pass

namespace Handler

variable {home : Tree} {composite : Node}

/-- A tick in which no update of the composite lingers leaves it tidy, and every
update in it draws each child at most once. -/
theorem keeps_of_tick (wellFormed : forest.WellFormed)
    (composed : forest.Located home composite)
    (prob : composite.kind = .probSequence ∨ composite.kind = .probSelector)
    (tidy : board.Tidy composite.hash) {fuel : Nat} {handler : Handler α}
    {agent : α} {report : TickReport α}
    (holds : handler.blackboard = some board)
    (ticked : tick fuel forest handler agent = some (.ok report))
    (settled : lingers composite.hash 0 report.pass.log = false) :
    report.pass.board.Tidy composite.hash ∧
      DrawsOnce home composite report.pass.log := by
  obtain ⟨setting, tree, start, rfl, registered, quiet, begins, rooted⟩ :=
    pass_of_tick holds ticked
  obtain ⟨swept, abandons⟩ :=
    abandons_abandonEach wellFormed board.notRevisited start
  obtain ⟨growth, visits, keeps⟩ := PassM.upholds_of_tick wellFormed composed
    prob (wellFormed.located_root registered) rooted
  have log : report.pass.log = sweep swept ++ growth := by
    rw [visits.log, abandons.log, quiet, List.nil_append]
  have sweeps := (quiet_sweep swept).nested
  rw [log, lingers_append sweeps, Bool.or_eq_false_iff] at settled
  have startTidy : start.board.Tidy composite.hash := begins ▸ tidy
  obtain ⟨tidyAfter, drawsOnce⟩ := keeps settled.2 (abandons.tidy startTidy)
  refine ⟨tidyAfter, ?_⟩
  rw [log]
  exact (DrawsOnce.of_quiet (quiet_sweep swept)).append sweeps drawsOnce

theorem drawsOnce_of_run (wellFormed : forest.WellFormed)
    (composed : forest.Located home composite)
    (prob : composite.kind = .probSequence ∨ composite.kind = .probSelector)
    (tidy : board.Tidy composite.hash) {reports : List (TickReport α)}
    (run : Run forest board reports)
    (settled : ∀ report ∈ reports,
      lingers composite.hash 0 report.pass.log = false) :
    ∀ report ∈ reports, DrawsOnce home composite report.pass.log := by
  induction run with
  | done => exact fun report member => nomatch member
  | @tick board fuel handler agent first later holds ticked _ induction =>
      obtain ⟨tidyAfter, drawsOnce⟩ := keeps_of_tick wellFormed composed prob tidy
        holds ticked (settled first List.mem_cons_self)
      have drawsLater := induction tidyAfter fun report member =>
        settled report (List.mem_cons_of_mem _ member)
      intro report member
      rcases List.mem_cons.mp member with rfl | member
      · exact drawsOnce
      · exact drawsLater report member

theorem root_halts {setting : Setting α} (wellFormed : setting.forest.WellFormed)
    (bounded : setting.config.maxStepsPerTick ≠ none ∨ setting.forest.Untangled)
    {id : TreeId} {tree : Tree}
    (registered : setting.forest.get? id = some tree) (pass : Pass α) :
    PassM.Halts (fun fuel => PassM.tick setting fuel tree tree.rootNode) pass := by
  have located := wellFormed.located_root registered
  cases budgeted : setting.config.maxStepsPerTick with
  | some budget =>
      have enough : budget.toNat < pass.steps + (budget.toNat + 1) := by omega
      exact PassM.halts_of_budget wellFormed budgeted enough located
  | none =>
      have untangled := bounded.resolve_left (absurd budgeted)
      have enough : setting.config.maxTransitionDepth.toNat ≤
          pass.depth + setting.config.maxTransitionDepth.toNat := by omega
      exact PassM.halts_of_untangled wellFormed untangled enough located

/-- A tick halts with a step budget or in an untangled forest. -/
theorem halts_of_tick (wellFormed : forest.WellFormed) (handler : Handler α)
    (bounded : handler.config.maxStepsPerTick ≠ none ∨ forest.Untangled)
    (agent : α) :
    ∃ outcome bound, ∀ fuel, bound ≤ fuel →
      tick fuel forest handler agent = some outcome := by
  cases holds : handler.blackboard with
  | none =>
      refine ⟨.error .notSetUp, 0, fun fuel _ => ?_⟩
      rw [tick, holds]
  | some board =>
      cases registered : forest.get? board.tree with
      | none =>
          refine ⟨.error (.treeMissing board.tree), 0, fun fuel _ => ?_⟩
          rw [tick, holds]
          dsimp only
          rw [registered]
      | some tree =>
          obtain ⟨⟨status, pass⟩, bound, ends⟩ :=
            @root_halts α (handler.setting forest) wellFormed bounded board.tree
              tree registered (handler.rootPass forest board agent)
          refine ⟨.ok { status, pass }, bound, fun fuel enough => ?_⟩
          have ended : PassM.tick (handler.setting forest) fuel tree tree.rootNode
              (handler.rootPass forest board agent) = some (status, pass) :=
            ends fuel enough
          rw [tick_of_registered holds registered, ended]
          rfl

/-- In all the ticks after a setup each update of a Prob composite ticks a child
at most once, as long as no update of the composite comes to `running` within
another one; and every tick halts that has a step budget or is made in an
untangled forest. -/
theorem drawing_of_run [Agent α] (wellFormed : forest.WellFormed) {agent : α}
    {selector : Option TreeSelector} {override : Bool} {id : TreeId}
    {previous handler : Handler α}
    (bound : (setup forest agent selector override).run previous =
      .ok id handler)
    (holds : handler.blackboard = some board)
    {reports : List (TickReport α)} (run : Run forest board reports) :
    (∀ home composite, forest.Located home composite →
      composite.kind = .probSequence ∨ composite.kind = .probSelector →
      (∀ report ∈ reports,
        lingers composite.hash 0 report.pass.log = false) →
      ∀ report ∈ reports, DrawsOnce home composite report.pass.log) ∧
    ∀ (next : Handler α) (agent : α),
      next.config.maxStepsPerTick ≠ none ∨ forest.Untangled →
      ∃ outcome bound, ∀ fuel, bound ≤ fuel →
        tick fuel forest next agent = some outcome := by
  obtain ⟨found, isBoard, idle⟩ := idle_of_setup bound
  rw [holds] at isBoard
  cases isBoard
  constructor
  · intro home composite composed prob settled
    exact drawsOnce_of_run wellFormed composed prob (idle.tidy _) run settled
  · exact fun next agent bounded =>
      halts_of_tick wellFormed next bounded agent

/-- A pool whose choice leads back into the tree. -/
def lottery (choice : List Subtree) : Subtree :=
  { name := "pool", hash := some ⟨"pool-1"⟩, kind := .probSequence
    children :=
      [{ name := "choice", hash := some ⟨"choice-1"⟩, kind := .selector
         children := choice }] }

def lotterySteps (choice : List Subtree) : List Grove.Step :=
  [.build ⟨1⟩ "main" {},
   .edit 0 (.add (.detached (lottery choice)) (Tree.build ⟨1⟩ "main" {}).root
     none false)]

/-- Waits while `busy` is taken; else claims it, ticks the tree again and
succeeds. -/
def rivals : List Subtree :=
  [{ name := "gate", hash := some ⟨"gate-1"⟩, kind := .allocator ["busy"]
     children :=
       [{ name := "no", hash := some ⟨"no-1"⟩, kind := .echoLeaf "no" false }] },
   { name := "body", hash := some ⟨"body-1"⟩
     kind := .parallel { primaryChild := some 2 }
     children :=
       [{ name := "claim", hash := some ⟨"claim-1"⟩, kind := .command "claim" },
        { name := "again", hash := some ⟨"again-1"⟩
          kind := .transition (some (.byId ⟨1⟩)) },
        { name := "ok", hash := some ⟨"ok-1"⟩, kind := .echoLeaf "ok" true }] }]

/-- Ticks the tree again, as deep as Transitions go. -/
def descent : List Subtree :=
  [{ name := "again", hash := some ⟨"again-1"⟩
     kind := .transition (some (.byId ⟨1⟩)) }]

def gambler (config : HandlerConfig) : Handler UInt64 :=
  { behaviors := ({} : Behaviors UInt64).withCommand "claim"
      fun agent globals => (agent, globals.claim "busy")
    config }

/-- A setup and ticks after it. -/
structure Gamble where
  forest : Forest
  id : TreeId
  handler : Handler UInt64
  reports : List (TickReport UInt64)

def gamble (config : HandlerConfig) (choice : List Subtree)
    (agents : List UInt64) : Option Gamble := do
  let grove ← Grove.run [] (lotterySteps choice)
  let forest := Forest.ofTrees grove
  match (setup forest (0 : UInt64) (some (.byId ⟨1⟩)) false).run
      (gambler config) with
  | .ok id handler =>
    let reports ← tickEach 200 forest handler agents
    return { forest, id, handler, reports }
  | .error _ _ => none

theorem run_of_gamble {config : HandlerConfig} {choice : List Subtree}
    {agents : List UInt64} {found : Gamble}
    (played : gamble config choice agents = some found) :
    found.forest.WellFormed ∧
    (setup found.forest (0 : UInt64) (some (.byId ⟨1⟩)) false).run
      (gambler config) = .ok found.id found.handler ∧
    ∃ board, found.handler.blackboard = some board ∧
      Run found.forest board found.reports := by
  obtain ⟨grove, built, played⟩ := Option.bind_eq_some_iff.mp played
  have wellFormed : (Forest.ofTrees grove).WellFormed := .of_steps built
  dsimp only at played
  split at played
  · next id handler bound =>
      obtain ⟨reports, ticked, played⟩ := Option.bind_eq_some_iff.mp played
      cases played
      obtain ⟨board, holds, _⟩ := idle_of_setup bound
      exact ⟨wellFormed, bound, board, holds, run_of_tickEach holds ticked⟩
  · cases played

def Gamble.pool (found : Gamble) : Option (Tree × Node) := do
  let tree ← found.forest.get? ⟨1⟩
  let pool ← tree.nodes[(⟨"pool-1"⟩ : NodeHash)]?
  if pool.kind = .probSequence then return (tree, pool) else none

theorem located_pool {found : Gamble} {home : Tree} {composite : Node}
    (wellFormed : found.forest.WellFormed)
    (isPool : found.pool = some (home, composite)) :
    found.forest.Located home composite ∧ composite.kind = .probSequence := by
  obtain ⟨tree, inForest, isPool⟩ := Option.bind_eq_some_iff.mp isPool
  obtain ⟨pool, inTree, isPool⟩ := Option.bind_eq_some_iff.mp isPool
  split at isPool
  · next kind =>
      cases isPool
      exact ⟨wellFormed.located_of_registered inForest inTree, kind⟩
  · cases isPool

/-- A pool that is entered again on every level draws each child once. -/
theorem descent_drawn_once :
    ∃ found home composite,
      gamble { maxStepsPerTick := some 100 } descent [0, 0] = some found ∧
      found.pool = some (home, composite) ∧
      (∀ report ∈ found.reports,
        DrawsOnce home composite report.pass.log) ∧
      ∃ outcome bound, ∀ fuel, bound ≤ fuel →
        tick fuel found.forest found.handler 0 = some outcome := by
  have checked : (gamble { maxStepsPerTick := some 100 } descent [0, 0]).any
      (fun found => found.handler.config.maxStepsPerTick ≠ none &&
        found.pool.any fun (_, pool) => found.reports.all fun report =>
          lingers pool.hash 0 report.pass.log = false) = true := by
    decide +kernel
  obtain ⟨found, played, passed⟩ := (Option.any_eq_true _ _).mp checked
  obtain ⟨bounded, passed⟩ := Bool.and_eq_true_iff.mp passed
  obtain ⟨⟨home, composite⟩, isPool, passed⟩ := (Option.any_eq_true _ _).mp passed
  obtain ⟨wellFormed, bound, board, holds, run⟩ := run_of_gamble played
  obtain ⟨located, kind⟩ := located_pool wellFormed isPool
  have settled : ∀ report ∈ found.reports,
      lingers composite.hash 0 report.pass.log = false := by
    intro report member
    exact of_decide_eq_true (List.all_eq_true.mp passed report member)
  obtain ⟨draws, halts⟩ := drawing_of_run wellFormed bound holds run
  exact ⟨found, home, composite, played, isPool,
    draws home composite located (.inl kind) settled,
    halts found.handler 0 (.inl (of_decide_eq_true bounded))⟩

/-- A child that ticks the tree again and succeeds is ticked twice by one update: the
inner update of the pool has left it as the child to go on with. -/
theorem rivals_drawn_twice :
    ∃ found home composite,
      gamble {} rivals [0] = some found ∧
      (found.forest.WellFormed ∧ found.forest.Located home composite ∧
        composite.kind = .probSequence) ∧
      (∃ board, (setup found.forest (0 : UInt64) (some (.byId ⟨1⟩)) false).run
          (gambler {}) = .ok found.id found.handler ∧
        found.handler.blackboard = some board ∧
        Run found.forest board found.reports) ∧
      ∃ report ∈ found.reports,
        ¬ DrawsOnce home composite report.pass.log := by
  have checked : (gamble {} rivals [0]).any (fun found =>
      found.pool.any fun (tree, pool) => found.reports.any fun report =>
        (updateTicks (tree.refTo pool) report.pass.log).any
          fun ticks => ¬ ticks.Nodup) = true := by
    decide +kernel
  obtain ⟨found, played, passed⟩ := (Option.any_eq_true _ _).mp checked
  obtain ⟨⟨home, composite⟩, isPool, passed⟩ := (Option.any_eq_true _ _).mp passed
  obtain ⟨wellFormed, bound, board, holds, run⟩ := run_of_gamble played
  obtain ⟨located, kind⟩ := located_pool wellFormed isPool
  obtain ⟨report, member, twice⟩ := List.any_eq_true.mp passed
  obtain ⟨ticks, isUpdate, repeated⟩ := List.any_eq_true.mp twice
  refine ⟨found, home, composite, played, ⟨wellFormed, located, kind⟩,
    ⟨board, bound, holds, run⟩, report, member, fun drawsOnce => ?_⟩
  exact of_decide_eq_true repeated (drawsOnce ticks isUpdate).1

end Handler

end BehaviorTree
