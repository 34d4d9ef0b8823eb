import BehaviorTree.Proofs.Handler.Binding
import BehaviorTree.Proofs.Handler.Drawing
import BehaviorTree.Proofs.Pass.Ranging

/-!
# Ticks after setup

A successful setup makes sure that no tick after it lacks a child, in the bound
tree or in one behind Transitions.  What is left are errors with an excuse:
unknown behaviours, Transitions without a target or too deep, and an exhausted
step budget.
-/

namespace BehaviorTree

open BehaviorTree.Pass

variable {α : Type} {forest : Forest} {board : Blackboard} {id : TreeId}

theorem Globals.addError_inj {first second : Globals} {message other : String}
    (same : first.addError message = second.addError other) :
    first = second ∧ message = other := by
  simp only [addError, Globals.mk.injEq] at same
  obtain ⟨resources, pushed, values⟩ := same
  obtain ⟨sameMessage, errors⟩ := Array.push_eq_push.mp pushed
  refine ⟨?_, sameMessage⟩
  cases first
  cases second
  exact congr (congr (congrArg Globals.mk resources) errors) values

/-- A blackboard on which every tick of a tree finds its children. -/
structure Blackboard.Ready (board : Blackboard) (forest : Forest)
    (id : TreeId) : Prop where
  bound : board.tree = id
  ranged : forest.Ranged board

theorem Blackboard.Idle.ranged (idle : board.Idle) : forest.Ranged board := by
  intro tree node _ running
  rw [idle.isRunning] at running
  cases running

theorem Pass.Abandons.ranged {refs swept : List NodeRef} {before after : Pass α}
    (abandons : Abandons forest refs swept before after)
    (ranged : forest.Ranged before.board) : forest.Ranged after.board := by
  intro tree node located running
  by_cases absent : ∀ ref ∈ swept, ref.hash ≠ node.hash
  · have same := abandons.elsewhere absent
    rw [Blackboard.isRunning_congr same] at running
    exact Blackboard.inRange_congr same (ranged located running)
  · push Not at absent
    obtain ⟨ref, member, sameHash⟩ := absent
    rw [← sameHash, abandons.cleared ref member] at running
    cases running

namespace Handler

variable {fuel : Nat} {handler : Handler α} {agent : α} {report : TickReport α}

/-- The blackboard that ticks leave, one after the other. -/
def boardAfter (board : Blackboard) : List (TickReport α) → Blackboard
  | [] => board
  | report :: later => boardAfter report.pass.board later

section Ready

variable (wellFormed : forest.WellFormed) (isScoped : forest.Scoped)
  (filled : forest.Filled id)
include wellFormed isScoped filled

/-- A tick leaves the blackboard ready, and comes to an error with an excuse or
not at all. -/
theorem ready_of_tick (ready : board.Ready forest id)
    (holds : handler.blackboard = some board)
    (ticked : tick fuel forest handler agent = some (.ok report)) :
    report.pass.board.Ready forest id ∧
      (report.status = .error →
        Excused (handler.setting forest) id report.pass) := by
  obtain ⟨tree, registered, rooted⟩ := (tick_eq_ok_iff holds).mp ticked
  obtain ⟨_, sweeps⟩ := handler.sweeps_rootPass forest board agent
  have isTree : tree.id = id := (wellFormed.keyed registered).trans ready.bound
  have ranged : forest.Ranged (handler.rootPass forest board agent).board := by
    have abandons : ∃ swept, Abandons forest board.notRevisited swept
        ({ agent, board := board.beginTick } : Pass α)
        (handler.rootPass forest board agent) :=
      @abandons_abandonEach α (handler.setting forest) wellFormed _ _
    obtain ⟨_, abandons⟩ := abandons
    exact abandons.ranged ready.ranged
  have sound : Sound (handler.setting forest) id (report.status = .error)
      (handler.rootPass forest board agent) report.pass :=
    PassM.sound_of_tick wellFormed isScoped filled
      (wellFormed.located_root registered) (isTree ▸ .refl) ranged
      sweeps.reserved.exhausted rooted
  refine ⟨⟨?_, sound.preserves.ranged ranged⟩, sound.excused⟩
  rw [sound.preserves.bound, sweeps.reserved.bound]
  exact ready.bound

theorem ready_of_run {reports : List (TickReport α)}
    (run : Run forest board reports) (ready : board.Ready forest id) :
    (boardAfter board reports).Ready forest id := by
  induction run with
  | done => exact ready
  | tick holds ticked _ induction =>
      exact induction
        (ready_of_tick wellFormed isScoped filled ready holds ticked).1

end Ready

/-- After a successful setup every tick finds its children. -/
theorem ready_of_setup [Agent α] (wellFormed : forest.WellFormed)
    (isScoped : forest.Scoped) {selector : Option TreeSelector}
    {override : Bool} {previous : Handler α}
    (bound : (setup forest agent selector override).run previous =
      .ok id handler) (holds : handler.blackboard = some board) :
    board.Ready forest id ∧ forest.Filled id ∧
      ∃ tree, forest.get? id = some tree := by
  rw [setup_eq] at bound
  split at bound
  · cases bound
  · next tree approved =>
      cases bound
      cases holds
      obtain ⟨chosen, _, filled⟩ := (approve_eq_ok_iff wellFormed).mp approved
      have registered := registered_choice wellFormed chosen
      refine ⟨⟨?_, (previous.idle_boundBoard _ _ _ _).ranged⟩, filled, tree,
        registered⟩
      exact (bound_boundBoard wellFormed isScoped registered).boundTo

/-- No tick after a successful setup lacks a child: each has a report, and the
one message of a tick that comes to an error is an excuse.  Apart from that
message the globals are those to which the calls of behaviours lead. -/
theorem excuses_of_run [Agent α] (wellFormed : forest.WellFormed)
    (isScoped : forest.Scoped) {selector : Option TreeSelector}
    {override : Bool} {previous : Handler α}
    (bound : (setup forest agent selector override).run previous =
      .ok id handler) (holds : handler.blackboard = some board)
    {reports : List (TickReport α)} (run : Run forest board reports)
    {next : Handler α} (goesOn : next.blackboard = some (boardAfter board reports))
    {current : α} {outcome : Except TickError (TickReport α)}
    (ticked : tick fuel forest next current = some outcome) :
    ∃ report calls globals, outcome = .ok report ∧
      next.behaviors.Performs calls
        (current, (boardAfter board reports).globals)
        (report.pass.agent, globals) ∧
      (report.status ≠ .error → report.pass.board.globals = globals) ∧
      (report.status = .error → ∃ message,
        report.pass.board.globals = globals.addError message ∧
        Excuse (next.setting forest) id message ∧
        (∀ tree, message ≠ childlessMessage tree) ∧
        ∀ node index, message ≠ missingMessage node index) := by
  obtain ⟨ready, filled, tree, registered⟩ :=
    ready_of_setup wellFormed isScoped bound holds
  have ready := ready_of_run wellFormed isScoped filled run ready
  have rooted : tick fuel forest next current = _ :=
    tick_of_registered goesOn (ready.bound ▸ registered)
  rw [ticked] at rooted
  obtain ⟨result, ran, isOutcome⟩ := Option.map_eq_some_iff.mp rooted.symm
  subst isOutcome
  obtain ⟨calls, globals, _, _, _, performed, _, calm, explained⟩ :=
    account_of_tick goesOn ticked
  refine ⟨_, calls, globals, rfl, performed, fun good => (calm good).1,
    fun failed => ?_⟩
  obtain ⟨message, recorded, _⟩ := explained failed
  obtain ⟨others, found, same, excuse⟩ :=
    (ready_of_tick wellFormed isScoped filled ready goesOn ticked).2 failed
  obtain ⟨_, rfl⟩ := Globals.addError_inj (recorded.symm.trans same)
  exact ⟨message, recorded, excuse, excuse.ne_missing⟩

/-- The handler after the ticks of a gamble. -/
def Gamble.resume (found : Gamble) : Handler UInt64 :=
  { found.handler with
    blackboard := found.reports.getLast?.map fun report => report.pass.board }

/-- A tree that ticks itself again without end comes to an error in the second
tick as in the first, and not for the lack of a child. -/
theorem descent_excused :
    ∃ found report message,
      gamble {} descent [0] = some found ∧
      tick 200 found.forest found.resume 0 = some (.ok report) ∧
      report.pass.board.globals.errors.back? = some message ∧
      Excuse (found.resume.setting found.forest) found.id message ∧
      ∀ node index, message ≠ missingMessage node index := by
  have checked : (gamble {} descent [0]).any (fun found =>
      decide found.forest.Scoped && decide (found.reports.length = 1) &&
      (reported (tick 200 found.forest found.resume (0 : UInt64))).any
        (·.status = .error)) = true := by
    decide +kernel
  obtain ⟨found, played, passed⟩ := (Option.any_eq_true _ _).mp checked
  obtain ⟨wellFormed, bound, board, holds, run⟩ := run_of_gamble played
  simp only [Bool.and_eq_true, decide_eq_true_eq] at passed
  obtain ⟨⟨isScoped, once⟩, passed⟩ := passed
  obtain ⟨first, isFirst⟩ := List.length_eq_one_iff.mp once
  have goesOn : found.resume.blackboard =
      some (boardAfter board found.reports) := by
    rw [Gamble.resume, isFirst]
    rfl
  obtain ⟨report, ticked, failed⟩ := (Option.any_eq_true _ _).mp passed
  rw [reported_eq_some_iff] at ticked
  obtain ⟨_, _, globals, same, _, _, explained⟩ :=
    excuses_of_run wellFormed isScoped bound holds run goesOn ticked
  cases same
  obtain ⟨message, recorded, excuse, _, notMissing⟩ :=
    explained (of_decide_eq_true failed)
  refine ⟨found, report, message, played, ticked, ?_, excuse, notMissing⟩
  rw [recorded, Globals.addError, Array.back?_push]

end Handler

end BehaviorTree
