import BehaviorTree.Proofs.Pass.Script
import BehaviorTree.Proofs.Pass.Ticking

/-!
# Checked ticks

A checked tick does what a tick does, but it comes to no result as soon as a
node is to be ticked in a pass that a test rejects.  So a tick that is equal to
the checked one ticks all its nodes, the first one included, in passes that the
test allows.
-/

namespace BehaviorTree

open BehaviorTree.Pass

variable {α β : Type} {setting : Setting α} {tree : Tree} {node : Node}

theorem Way.log_same {pass start : Pass α} {next : Tree} {child : Node}
    {back : Pass α → Pass α}
    (way : Way setting tree node pass next child start back) :
    start.log = pass.log ∧ ∀ after, (back after).log = after.log := by
  cases way with
  | child => exact ⟨rfl, fun _ => rfl⟩
  | jump => exact ⟨rfl, fun _ => rfl⟩

/-- Two ways of ticking that agree wherever a script ticks lead the script to the
same outcome, and to a pass that is as `good` as the one in which it begins. -/
theorem Script.FailFast.agree {visit other : PassM.Visit α}
    {good : Pass α → Prop} {bad value : β} {script : Script α β}
    {before after : Pass α}
    (asides : ∀ {before after : Pass α}, Aside tree node before after →
      good before → good after)
    (ticks : ∀ {middle start after : Pass α} {next : Tree} {child : Node}
      {back : Pass α → Pass α} {status : Status},
      Way setting tree node middle next child start back → good middle →
      visit next child start = some (status, after) →
      other next child start = some (status, after) ∧ good (back after))
    (failFast : script.FailFast setting tree node bad before)
    (held : good before) (ended : script.run visit = some (value, after)) :
    script.run other = some (value, after) ∧ good after := by
  induction failFast with
  | outOfFuel => cases ended
  | done acts =>
      cases ended
      exact ⟨rfl, asides acts.aside held⟩
  | fail _ acts =>
      cases ended
      exact ⟨rfl, asides (acts.aside.trans (.addError _ _)) held⟩
  | tick acts way _ ends induction =>
      obtain ⟨⟨status, visited⟩, isVisit, ended⟩ :=
        Option.bind_eq_some_iff.mp ended
      obtain ⟨agrees, held⟩ := ticks way (asides acts.aside held) isVisit
      rw [Script.run, agrees, Option.bind_some]
      by_cases failed : status = .error
      · subst failed
        obtain ⟨moved, moves, isDone⟩ := ends visited
        rw [isDone] at ended ⊢
        cases ended
        exact ⟨rfl, asides (moves.acts setting).aside held⟩
      · exact induction status visited failed held ended

namespace PassM

theorem agree_update {visit other : Visit α} {good : Pass α → Prop} {fuel : Nat}
    {before after : Pass α} {status : Status}
    (asides : ∀ {before after : Pass α}, Aside tree node before after →
      good before → good after)
    (ticks : ∀ {middle start after : Pass α} {next : Tree} {child : Node}
      {back : Pass α → Pass α} {status : Status},
      Way setting tree node middle next child start back → good middle →
      visit next child start = some (status, after) →
      other next child start = some (status, after) ∧ good (back after))
    (held : good before)
    (ended : update setting fuel visit tree node before = some (status, after)) :
    update setting fuel other tree node before = some (status, after) ∧
      good after := by
  obtain ⟨script, same, failFast⟩ := planned_update setting fuel tree node before
  have runs : ∀ visit : Visit α,
      update setting fuel visit tree node before = script.run visit := same
  rw [runs] at ended ⊢
  exact failFast.agree asides ticks held ended

/-- A tick that comes to no result once a node is to be ticked in a pass that
`allows` rejects. -/
def tickIf (allows : Tree → Node → Pass α → Bool) (setting : Setting α) :
    Nat → Visit α
  | 0 => fun _ _ => outOfFuel
  | fuel + 1 => fun tree node => do
    if allows tree node (← get) then
      if ← modifyGet (·.takeStep setting.config (tree.refTo node)) then
        activate setting fuel (tickIf allows setting fuel) tree node
      else return .error
    else outOfFuel

section Allowed

variable {allows : Tree → Node → Pass α → Bool} {before : Pass α}
  (allowed : allows tree node before = true)
include allowed

theorem tickIf_of_allowed (fuel : Nat) :
    tickIf allows setting (fuel + 1) tree node before =
      (if (before.takeStep setting.config (tree.refTo node)).1 then
        activate setting fuel (tickIf allows setting fuel) tree node
      else return .error : PassM α Status)
        (before.takeStep setting.config (tree.refTo node)).2 := by
  change (if allows tree node before then (do
      if ← modifyGet (·.takeStep setting.config (tree.refTo node)) then
        activate setting fuel (tickIf allows setting fuel) tree node
      else return .error)
    else outOfFuel : PassM α Status) before = _
  rw [if_pos allowed]
  rfl

/-- A checked tick is refused or covered by the budget like any other. -/
theorem tickIf_cases {fuel : Nat} {after : Pass α} {status : Status}
    (ended : tick setting (fuel + 1) tree node before = some (status, after)) :
    (Refuses tree node before after ∧
      tickIf allows setting (fuel + 1) tree node before =
        some (status, after)) ∨
    ∃ opened body, Enters tree node before opened ∧
      update setting fuel (tick setting fuel) tree node opened =
        some (status, body) ∧
      Leaves tree node status body after ∧
      (update setting fuel (tickIf allows setting fuel) tree node opened =
          some (status, body) →
        tickIf allows setting (fuel + 1) tree node before =
          some (status, after)) := by
  have starts : tickIf allows setting (fuel + 1) tree node before = _ :=
    tickIf_of_allowed allowed fuel
  rcases before.takeStep_cases setting.config tree node with
    ⟨covered, taken⟩ | ⟨refused, taken, refuses⟩
  · right
    obtain ⟨body, updated, rfl⟩ := updated_of_tick covered ended
    refine ⟨_, body, enters_enter setting tree node before, updated,
      leaves_leave setting tree node status body, fun checked => ?_⟩
    rw [starts, taken, if_pos rfl, activate_apply]
    exact Option.map_eq_some_iff.mpr ⟨_, checked, rfl⟩
  · left
    have isTick : tick setting (fuel + 1) tree node before =
        some (.error, refused) := by
      change (if (before.takeStep setting.config (tree.refTo node)).1 then
          activate setting fuel (tick setting fuel) tree node
        else return .error : PassM α Status)
          (before.takeStep setting.config (tree.refTo node)).2 = _
      rw [taken, if_neg Bool.false_ne_true]
      rfl
    rw [isTick] at ended
    cases ended
    refine ⟨refuses, ?_⟩
    rw [starts, taken, if_neg Bool.false_ne_true]
    rfl

end Allowed

end PassM

end BehaviorTree
