import BehaviorTree.Proofs.Handler.Resuming
import BehaviorTree.Proofs.Pass.Fitting

/-!
# Ticks that find states that fit

Whatever edits, setups, prunings and other ticks come before, a tick of a handler
finds each state that it reads or writes in the shape of its node.
-/

namespace BehaviorTree

variable {α : Type}

open PassM

namespace Handler

/-- A pass from the root of a tree that looks before every access to the state of
a node. -/
def waryPass (setting : Setting α) (fuel : Nat) (tree : Tree)
    (board : Blackboard) (agent : α) : Option (TickReport α) :=
  let start : Pass α := { agent, board := board.beginTick }
  let cleared := Wary.abandonEach setting board.notRevisited start
  (Wary.tick setting fuel tree tree.rootNode cleared).map fun result =>
    { status := result.1, pass := result.2 }

/-- A tick of a handler that looks before every access to the state of a node. -/
def waryTick (fuel : Nat) (forest : Forest) (handler : Handler α) (agent : α) :
    Option (Except TickError (TickReport α)) :=
  match handler.blackboard with
  | none => some (.error .notSetUp)
  | some board =>
    match forest.get? board.tree with
    | none => some (.error (.treeMissing board.tree))
    | some tree =>
      (waryPass (handler.setting forest) fuel tree board agent).map .ok

theorem clean_rootPass (handler : Handler α) (forest : Forest)
    (board : Blackboard) (agent : α) :
    (handler.rootPass forest board agent).Clean :=
  clean_abandonEach fun _ => List.not_mem_nil

variable {forest : Forest} (wellFormed : forest.WellFormed)
  (isScoped : forest.Scoped)
include wellFormed isScoped

theorem waryPass_eq (handler : Handler α) (fuel : Nat) {id : TreeId}
    {tree : Tree} (registered : forest.get? id = some tree)
    (board : Blackboard) (agent : α) :
    waryPass (handler.setting forest) fuel tree board agent =
      runPass (handler.setting forest) fuel tree board agent := by
  have same := @Wary.tick_eq α (handler.setting forest) _ _ wellFormed isScoped
    (wellFormed.located_root registered) _
    (handler.clean_rootPass forest board agent) fuel
  rw [runPass_eq, ← same, waryPass, Wary.abandonEach_eq]
  rfl

theorem waryTick_eq (handler : Handler α) (fuel : Nat) (agent : α) :
    waryTick fuel forest handler agent = tick fuel forest handler agent := by
  unfold waryTick tick
  cases handler.blackboard with
  | none => rfl
  | some board =>
      dsimp only
      cases registered : forest.get? board.tree with
      | none => rfl
      | some tree =>
          dsimp only
          rw [waryPass_eq wellFormed isScoped handler fuel registered]
          rfl

theorem clean_of_tick {handler : Handler α} {fuel : Nat} {agent : α}
    {report : TickReport α}
    (ticked : tick fuel forest handler agent = some (.ok report)) :
    report.pass.Clean := by
  obtain ⟨board, holds⟩ := holds_of_tick ticked
  obtain ⟨tree, registered, rooted⟩ := (tick_eq_ok_iff holds).mp ticked
  exact @PassM.clean_of_tick α (handler.setting forest) _ _ wellFormed isScoped
    (wellFormed.located_root registered) _ _ _ _
    (handler.clean_rootPass forest board agent) rooted

end Handler

namespace Session

open Pass

/-- Whatever happened before, a tick may as well look at the state of a node
before every access to it: each state is there and fits, so the look makes no
difference, and the tick notes no misfit. -/
theorem fitting_of_run [Agent α] {behaviors : Behaviors α}
    {config : HandlerConfig} {events : List (Event α)} {session : Session α}
    (ran : (start behaviors config).run events = some session) (fuel : Nat)
    (agent : α) :
    Handler.waryTick fuel session.forest session.handler agent =
      Handler.tick fuel session.forest session.handler agent ∧
    ∀ report,
      Handler.tick fuel session.forest session.handler agent =
        some (.ok report) →
      ∀ ref, .misfit ref ∉ report.pass.log := by
  have sound := sound_run Woodland.sound_empty ran
  have isScoped := sound.labelled.isScoped
  exact ⟨Handler.waryTick_eq sound.wellFormed isScoped session.handler fuel agent,
    fun _ ticked => Handler.clean_of_tick sound.wellFormed isScoped ticked⟩

/-- The work becomes parallel while it waits. -/
def reform : List (Event UInt64) :=
  [.edit (.edit ⟨1⟩ (.replaceKind ⟨"work-1"⟩ (.parallel {}))), .prune]

/-- The state of the waiting work is that of a sequence, and the next tick begins
the parallel work without coming upon it. -/
theorem work_reforms :
    ∃ (session : Session UInt64) (board : Blackboard) (home : Tree)
      (work : Node) (report : TickReport UInt64),
      guard.run (dawn ++ reform) = some session ∧
      session.handler.blackboard = some board ∧
      session.forest.Located home work ∧
      board.isRunning work.hash = true ∧ board.fits work = false ∧
      Handler.waryTick 20 session.forest session.handler 0 = some (.ok report) ∧
      .finished (home.refTo work) .running ∈ report.pass.log ∧
      ∀ ref, .misfit ref ∉ report.pass.log := by
  have checked : (guard.run (dawn ++ reform)).any (fun session =>
      (session.forest.get? ⟨1⟩).any fun home =>
      home.nodes[(⟨"work-1"⟩ : NodeHash)]?.any fun work =>
      session.handler.blackboard.any fun board =>
      (Handler.reported (Handler.tick 20 session.forest session.handler
        (0 : UInt64))).any fun report =>
        board.isRunning work.hash && !board.fits work &&
          decide (.finished (home.refTo work) .running ∈ report.pass.log)) =
      true := by
    decide +kernel
  obtain ⟨session, home, work, ran, _, located, passed⟩ :=
    exists_located_of_run Woodland.sound_empty checked
  obtain ⟨board, holds, passed⟩ := (Option.any_eq_true _ _).mp passed
  obtain ⟨report, ticked, passed⟩ := (Option.any_eq_true _ _).mp passed
  rw [Handler.reported_eq_some_iff] at ticked
  simp only [Bool.and_eq_true, Bool.not_eq_true', decide_eq_true_eq] at passed
  obtain ⟨⟨running, misfits⟩, finished⟩ := passed
  obtain ⟨same, fits⟩ := fitting_of_run ran 20 (0 : UInt64)
  exact ⟨session, board, home, work, report, ran, holds, located, running,
    misfits, same.trans ticked, finished, fits report ticked⟩

end Session

end BehaviorTree
