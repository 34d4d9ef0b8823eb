import BehaviorTree.Proofs.Pass.Script
import BehaviorTree.Proofs.Pass.Ticking

/-!
# What ticks keep

A tick of a node writes to the blackboard when it enters nodes, moves at them and
leaves them.  So a property of blackboards is kept by a tick if it is kept there,
at the node and at all nodes to which it leads.
-/

namespace BehaviorTree

open BehaviorTree.Pass

variable {α : Type} {setting : Setting α} {tree : Tree} {node : Node}
  {before after : Pass α} {status : Status}

theorem Way.follows (wellFormed : setting.forest.WellFormed) {next : Tree}
    {child : Node} {start : Pass α} {back : Pass α → Pass α}
    (way : Way setting tree node before next child start back)
    (located : setting.forest.Located tree node) :
    setting.forest.Located next child ∧
      next.refTo child ∈ setting.forest.childrenFollowing (tree.refTo node) ∧
      start.board = before.board ∧ ∀ after, (back after).board = after.board := by
  cases way with
  | child plain isChild =>
      exact ⟨wellFormed.located_childAt located isChild,
        wellFormed.mem_childrenFollowing_childAt located plain isChild, rfl,
        fun _ => rfl⟩
  | jump jumps selected =>
      exact ⟨wellFormed.located_target selected,
        wellFormed.mem_childrenFollowing_target located jumps selected, rfl,
        fun _ => rfl⟩

/-- A property of blackboards that does not depend on the globals and that the
moves of a node keep. -/
structure Blackboard.Steady (holds : Blackboard → Prop) (α : Type) (tree : Tree)
    (node : Node) : Prop where
  globals : ∀ {board : Blackboard} (globals : Globals),
    holds board → holds { board with globals }
  moves : ∀ {before after : Pass α}, Move tree node before after →
    holds before.board → holds after.board

namespace Blackboard.Steady

variable {holds : Blackboard → Prop} (steady : Steady holds α tree node)
include steady

theorem acts (acts : Acts setting tree node before after)
    (held : holds before.board) : holds after.board := by
  induction acts with
  | refl => exact held
  | tail _ act induction =>
      cases act with
      | move move => exact steady.moves move induction
      | ask => exact induction
      | run => exact steady.globals _ induction

/-- What the ticks of a script keep, the script does. -/
theorem script (wellFormed : setting.forest.WellFormed)
    (located : setting.forest.Located tree node) {β : Type} {bad value : β}
    {visit : PassM.Visit α} {script : Script α β}
    (ticks : ∀ {next child before status after},
      setting.forest.Located next child →
      next.refTo child ∈ setting.forest.childrenFollowing (tree.refTo node) →
      visit next child before = some (status, after) →
      holds before.board → holds after.board)
    (failFast : script.FailFast setting tree node bad before)
    (ended : script.run visit = some (value, after))
    (held : holds before.board) : holds after.board := by
  induction failFast with
  | outOfFuel => cases ended
  | done acts =>
      cases ended
      exact steady.acts acts held
  | fail _ reaches =>
      cases ended
      exact steady.globals _ (steady.acts reaches held)
  | @tick _ _ start _ _ back _ acts way _ ends induction =>
      obtain ⟨⟨status, middle⟩, visited, ended⟩ :=
        Option.bind_eq_some_iff.mp ended
      obtain ⟨found, follows, begins, returns⟩ := way.follows wellFormed located
      have ticked : holds (back middle).board := by
        rw [returns]
        apply ticks found follows visited
        rw [begins]
        exact steady.acts acts held
      by_cases good : status = .error
      · subst good
        obtain ⟨moved, moves, isDone⟩ := ends middle
        rw [isDone] at ended
        cases ended
        exact steady.acts (moves.acts setting) ticked
      · exact induction _ _ good ended ticked

theorem update (wellFormed : setting.forest.WellFormed)
    (located : setting.forest.Located tree node) {fuel : Nat}
    {visit : PassM.Visit α}
    (ticks : ∀ {next child before status after},
      setting.forest.Located next child →
      next.refTo child ∈ setting.forest.childrenFollowing (tree.refTo node) →
      visit next child before = some (status, after) →
      holds before.board → holds after.board)
    (updated : PassM.update setting fuel visit tree node before =
      some (status, after))
    (held : holds before.board) : holds after.board := by
  obtain ⟨script, same, failFast⟩ :=
    planned_update setting fuel tree node before
  exact steady.script wellFormed located ticks failFast
    ((same visit).symm.trans updated) held

end Blackboard.Steady

theorem Pass.board_takeStep (pass : Pass α) (config : HandlerConfig)
    (ref : NodeRef) :
    ∃ globals, (pass.takeStep config ref).2.board =
      { pass.board with globals } := by
  unfold takeStep
  cases config.maxStepsPerTick with
  | none => exact ⟨_, rfl⟩
  | some budget =>
      dsimp only
      split
      · exact ⟨_, rfl⟩
      · split
        · exact ⟨_, rfl⟩
        · exact ⟨_, rfl⟩

/-- A tick that the budget does not cover records an execution problem at
most. -/
theorem PassM.board_of_tick {fuel : Nat}
    (ended : tick setting (fuel + 1) tree node before = some (status, after)) :
    (∃ globals, after.board = { before.board with globals }) ∨
    ∃ body, update setting fuel (tick setting fuel) tree node
        (enter setting tree node (before.accept (tree.refTo node))) =
        some (status, body) ∧
      after = leave setting tree node status body := by
  rcases before.takeStep_cases setting.config tree node with
    ⟨covered, _⟩ | ⟨refused, taken, _⟩
  · exact .inr (updated_of_tick covered ended)
  · left
    change (if (before.takeStep setting.config (tree.refTo node)).1 then
        activate setting fuel (tick setting fuel) tree node
      else return .error : PassM α Status)
        (before.takeStep setting.config (tree.refTo node)).2 = _ at ended
    rw [taken, if_neg Bool.false_ne_true] at ended
    cases ended
    have board := before.board_takeStep setting.config (tree.refTo node)
    rwa [taken] at board

/-- What entering, moving and leaving keep at all nodes to which a node leads,
a tick of the node does. -/
theorem PassM.keeps_of_tick (wellFormed : setting.forest.WellFormed)
    (holds : Blackboard → Prop) (among : NodeRef → Prop)
    (closed : ∀ {ref next}, among ref →
      next ∈ setting.forest.childrenFollowing ref → among next)
    (steady : ∀ {tree node}, among (tree.refTo node) →
      Blackboard.Steady holds α tree node)
    (enters : ∀ {tree node} {pass : Pass α}, among (tree.refTo node) →
      holds pass.board → holds (enter setting tree node pass).board)
    (leaves : ∀ {tree node status} {pass : Pass α}, among (tree.refTo node) →
      holds pass.board → holds (leave setting tree node status pass).board)
    {fuel : Nat} (located : setting.forest.Located tree node)
    (isAmong : among (tree.refTo node))
    (ended : tick setting fuel tree node before = some (status, after))
    (held : holds before.board) : holds after.board := by
  induction fuel generalizing tree node before status after with
  | zero => cases ended
  | succ fuel induction =>
      rcases board_of_tick ended with ⟨globals, same⟩ | ⟨body, updated, rfl⟩
      · rw [same]
        exact (steady isAmong).globals globals held
      · apply leaves isAmong
        refine (steady isAmong).update wellFormed located ?_ updated
          (enters isAmong held)
        exact fun found follows => induction found (closed isAmong follows)

end BehaviorTree
