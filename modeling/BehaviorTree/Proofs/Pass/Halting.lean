import BehaviorTree.Proofs.Pass.Bounds

/-!
# Ticks that halt

The update of a node halts if the ticks within it do, so what remains is a
measure of these ticks.  With a step budget it is what is left of the budget.
Without one it is the number of Transitions that may still be followed and,
within a tree, the distance from the root.
-/

namespace BehaviorTree

open BehaviorTree.Pass

namespace PassM

variable {α : Type} {setting : Setting α} {tree : Tree} {node : Node}
  {before after opened : Pass α} {final : Option Status}

/-- A tick halts if the update does, which is not made beyond the budget. -/
theorem Halts.tick
    (updates : ∀ {opened},
      (∀ budget, setting.config.maxStepsPerTick = some budget →
        before.steps < budget.toNat) →
      Enters tree node before opened →
      Halts (fun fuel => update setting fuel (tick setting fuel) tree node)
        opened) :
    Halts (fun fuel => PassM.tick setting fuel tree node) before := by
  apply of_succ
  rcases tick_eq setting tree node before with
    ⟨covered, opened, enters, starts⟩ | ⟨refused, _, starts⟩
  · obtain ⟨result, bound, ends⟩ := updates covered enters
    refine ⟨(result.1, leave setting tree node result.1 result.2), bound, ?_⟩
    intro fuel enough
    exact (starts fuel).trans (congrArg _ (ends fuel enough))
  · exact ⟨(.error, refused), 0, fun fuel _ => starts fuel⟩

theorem Along.depth (wellFormed : setting.forest.WellFormed)
    (located : setting.forest.Located tree node)
    (along : Along setting (PassM.tick setting) tree node before final after) :
    after.depth = before.depth :=
  Flow.depth ((Flow.locate wellFormed located along).mono
    fun ⟨found, _, ⟨_, ticked⟩, _⟩ => depth_of_tick wellFormed found ticked)

theorem Along.steps_le (wellFormed : setting.forest.WellFormed)
    (located : setting.forest.Located tree node)
    (along : Along setting (PassM.tick setting) tree node before final after) :
    before.steps ≤ after.steps :=
  Flow.steps_le ((Flow.locate wellFormed located along).mono
    fun ⟨found, _, ⟨_, ticked⟩, _⟩ => steps_lt_of_tick wellFormed found ticked)

section Budgeted

variable (wellFormed : setting.forest.WellFormed) {budget : UInt64}
  (budgeted : setting.config.maxStepsPerTick = some budget)
include wellFormed budgeted

/-- What is left of the budget becomes less with every draw. -/
theorem covers_of_budget (located : setting.forest.Located tree node)
    (ticks : ∀ {next child pass}, setting.forest.Located next child →
      opened.steps ≤ pass.steps →
      Halts (fun fuel => PassM.tick setting fuel next child) pass) :
    Covers setting (PassM.tick setting) tree node opened where
  child along _ isChild :=
    ticks (wellFormed.located_childAt located isChild)
      (along.steps_le wellFormed located)
  jump along _ isTarget _ := by
    have later := along.steps_le wellFormed located
    exact ticks (wellFormed.located_target isTarget) later
  draw prob := by
    refine ⟨fun pass => budget.toNat - pass.steps, ?_⟩
    intro pass after child index fuel status _ _ isChild ticked _ noError
    have drawn : Aside tree node pass (pass.nextProbChild tree node).2 :=
      .nextProbChild pass prob
    have covered := covered_of_tick budgeted ticked noError
    have counted := steps_lt_of_tick wellFormed
      (wellFormed.located_childAt located isChild) ticked
    rw [drawn.steps] at covered counted
    change budget.toNat - after.steps < budget.toNat - pass.steps
    omega

theorem halts_of_budget {left : Nat} (bound : budget.toNat < before.steps + left)
    (located : setting.forest.Located tree node) :
    Halts (fun fuel => PassM.tick setting fuel tree node) before := by
  induction left generalizing tree node before with
  | zero =>
      refine .tick fun covered _ => ?_
      have := covered budget budgeted
      omega
  | succ left induction =>
      refine .tick fun {opened} _ enters => ?_
      have covers : Covers setting (PassM.tick setting) tree node opened := by
        apply covers_of_budget wellFormed budgeted located
        intro next child pass found later
        rw [enters.steps] at later
        exact induction (by omega) found
      exact (ended_update fun _ : True => covers).halts trivial

end Budgeted

section Untangled

variable (wellFormed : setting.forest.WellFormed)
  (untangled : setting.forest.Untangled)
include wellFormed untangled

/-- The candidates become fewer with every draw. -/
theorem covers_of_untangled (located : setting.forest.Located tree node)
    (children : ∀ {child index pass}, tree.childAt node index = some child →
      pass.depth = opened.depth →
      Halts (fun fuel => PassM.tick setting fuel tree child) pass)
    (targets : ∀ {target pass}, setting.forest.Located target target.rootNode →
      opened.depth < setting.config.maxTransitionDepth.toNat →
      pass.depth = opened.depth + 1 →
      Halts (fun fuel => PassM.tick setting fuel target target.rootNode) pass) :
    Covers setting (PassM.tick setting) tree node opened where
  child along _ isChild := children isChild (along.depth wellFormed located)
  jump along _ isTarget shallow := by
    have depth := along.depth wellFormed located
    rw [depth] at shallow
    exact targets (wellFormed.located_target isTarget) shallow
      (congrArg (· + 1) depth)
  draw prob := by
    refine ⟨fun pass => (pass.board.candidates node.hash).length, ?_⟩
    intro pass after child index fuel status along next isChild ticked
      notRunning _
    rcases pass.nextProbChild_cases tree node with ⟨isNone, _⟩ |
      ⟨found, _, _, perm⟩
    · rw [next] at isNone
      cases isNone
    have plain : node.kind.transitionTarget = none := by
      rcases prob with kind | kind <;> rw [kind] <;> rfl
    have follows := wellFormed.mem_childrenFollowing_childAt located plain isChild
    have calm := calm_of_tick wellFormed untangled located prob
      (wellFormed.located_childAt located isChild) (.single follows) ticked
    have fewer := calm.resolve_left notRunning
    change (after.board.candidates node.hash).length <
      (pass.board.candidates node.hash).length
    rw [perm.length_eq, List.length_cons]
    exact Nat.lt_succ_of_le fewer

/-- By the number of Transitions that may still be followed, and in each tree by
the distance from its root. -/
theorem halts_of_untangled {jumps : Nat}
    (deep : setting.config.maxTransitionDepth.toNat ≤ before.depth + jumps)
    (located : setting.forest.Located tree node) :
    Halts (fun fuel => PassM.tick setting fuel tree node) before := by
  induction jumps using Nat.strongRecOn generalizing tree node before with
  | _ jumps nearer =>
  have descends : ∀ (height level : Nat) {node : Node} {before : Pass α},
      setting.config.maxTransitionDepth.toNat ≤ before.depth + jumps →
      setting.forest.Located tree node →
      tree.climb level node.hash = some tree.root →
      tree.nodes.size ≤ level + height →
      Halts (fun fuel => PassM.tick setting fuel tree node) before := by
    intro height
    induction height with
    | zero =>
        intro level node before _ located climbs large
        have := (wellFormed.trees located.inForest).climb_lt_size
          located.inTree climbs
        omega
    | succ height induction =>
        intro level node before deep located climbs large
        refine .tick fun {opened} _ enters => ?_
        have covers : Covers setting (PassM.tick setting) tree node opened := by
          refine covers_of_untangled wellFormed untangled located ?_ ?_
          · intro child index pass isChild depth
            rw [enters.depth] at depth
            have childLocated := wellFormed.located_childAt located isChild
            refine induction (level + 1) (depth ▸ deep) childLocated ?_ (by omega)
            rw [Tree.climb, wellFormed.parentOf_childAt located isChild,
              Option.bind_some, climbs]
          · intro target pass found shallow depth
            rw [enters.depth] at shallow depth
            exact nearer (jumps - 1) (by omega) (by omega) found
        exact (ended_update fun _ : True => covers).halts trivial
  obtain ⟨level, climbs⟩ :=
    ((wellFormed.trees located.inForest).rooted located.inTree).exists_climb
  exact descends tree.nodes.size level deep located climbs (by omega)

end Untangled

end PassM

end BehaviorTree
