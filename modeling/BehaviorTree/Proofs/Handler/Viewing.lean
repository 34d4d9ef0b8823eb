import BehaviorTree.Proofs.Handler.Ticking
import BehaviorTree.Proofs.Pass.Viewing

/-!
# Handlers seen through a view

If a view shows every node that a pass can meet, then a handler of which only
the view is kept ticks like the whole handler.
-/

namespace BehaviorTree

open BehaviorTree.Pass

variable {α : Type} {view : View} {forest : Forest} {met : Tree → Node → Prop}

def TickReport.through (report : TickReport α) (view : View) : TickReport α :=
  { report with pass := report.pass.through view }

namespace Handler

def through (handler : Handler α) (view : View) : Handler α :=
  { handler with
    config := handler.config.through view
    blackboard := handler.blackboard.map (·.through view) }

/-- What a step answers, and what is seen of the handler after it. -/
def seenAfter {β : Type} (view : View) (outcome : β × (Handler α × α)) :
    β × (Handler α × α) :=
  (outcome.1, (outcome.2.1.through view, outcome.2.2))

variable (covers : view.Covers forest met)
include covers

theorem rootPass_through (handler : Handler α) (board : Blackboard) (agent : α) :
    (handler.through view).rootPass forest (board.through view) agent =
      (handler.rootPass forest board agent).through view := by
  rw [rootPass, board.notRevisited_through]
  have swept := @abandonEach_through α view (handler.setting forest) met covers
    board.notRevisited { agent, board := board.beginTick }
  exact swept

theorem tick_through (fuel : Nat) (handler : Handler α) (agent : α) :
    tick fuel forest (handler.through view) agent =
      (tick fuel forest handler agent).map
        (Except.map (TickReport.through · view)) := by
  cases holds : handler.blackboard with
  | none =>
      have unset : (handler.through view).blackboard = none := by
        rw [through, holds]
        rfl
      rw [tick, tick, holds, unset]
      rfl
  | some board =>
      have seenBoard : (handler.through view).blackboard =
          some (board.through view) := by
        rw [through, holds]
        rfl
      cases registered : forest.get? board.tree with
      | none =>
          have missing : forest.get? (board.through view).tree = none :=
            registered
          rw [tick, tick, holds, seenBoard]
          dsimp only
          rw [registered, missing]
          rfl
      | some tree =>
          have seenTick : PassM.Seen view
              (PassM.tick (handler.setting forest) fuel tree tree.rootNode)
              (PassM.tick ((handler.setting forest).through view) fuel tree
                tree.rootNode) :=
            PassM.seen_tick covers fuel (covers.root registered)
          rw [tick_of_registered holds registered,
            tick_of_registered seenBoard registered, rootPass_through covers]
          change (PassM.tick ((handler.setting forest).through view) fuel tree
            tree.rootNode _).map _ = _
          rw [seenTick.apply_through, Option.map_map, Option.map_map]
          rfl

theorem step_through (fuel : Nat) (handler : Handler α) (agent : α) :
    step fuel forest (handler.through view, agent) =
      (step fuel forest (handler, agent)).map (seenAfter view) := by
  rw [step, step, tick_through covers, Option.map_map, Option.map_map]
  apply Option.map_congr
  rintro (cause | report) _ <;> rfl

end Handler

end BehaviorTree
