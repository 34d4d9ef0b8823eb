import BehaviorTree.Proofs.Handler.Resuming
import BehaviorTree.Proofs.Handler.Viewing

/-!
# Pruning

Pruning drops the state of the nodes that the forest no longer has.  A pass
meets none of them, so ticks go on after pruning as they would have gone on
without it, down to the states of all nodes of the forest.
-/

namespace BehaviorTree

/-- A search of the trees is one of their list. -/
theorem any_eq_any_toList (trees : Std.ExtTreeMap TreeId Tree)
    (test : TreeId → Tree → Bool) :
    trees.any test = trees.toList.any fun entry => test entry.1 entry.2 := by
  let visit (entry : TreeId × Tree) (_ : Option Bool × Unit) :
      Id (ForInStep (Option Bool × Unit)) :=
    if test entry.1 entry.2 then pure (.done (some true, ()))
    else pure (.yield (none, ()))
  have asLoop : trees.any test =
      (forIn trees (none, ()) visit : Id _).run.1.getD false := by
    rcases trees with ⟨⟨inner⟩⟩
    induction inner using Quotient.inductionOn with
    | h inner =>
        change Std.DTreeMap.Internal.Impl.any inner.inner test =
          (forIn inner.inner (none, ()) fun entry state =>
            visit (entry.1, entry.2) state : Id _).run.1.getD false
        rw [Std.DTreeMap.Internal.Impl.any]
        -- the two loops only differ in how their result is taken apart
        generalize (forIn inner.inner (none, ()) _ : Id (Option Bool × Unit)) =
          found
        rcases found with ⟨_ | _, _⟩ <;> rfl
  rw [asLoop, Std.ExtTreeMap.forIn_eq_forIn_toList]
  induction trees.toList with
  | nil => rfl
  | cons entry rest induction =>
      rw [List.forIn_cons, List.any_cons, ← induction]
      dsimp only [visit]
      cases test entry.1 entry.2 <;> rfl

namespace Forest

variable {forest : Forest}

theorem registers_iff {hash : NodeHash} :
    forest.registers hash = true ↔
      ∃ id tree, forest.get? id = some tree ∧ tree.contains hash = true := by
  rw [registers, any_eq_any_toList, List.any_eq_true]
  constructor
  · rintro ⟨⟨id, tree⟩, listed, contained⟩
    exact ⟨id, tree, Std.ExtTreeMap.mem_toList_iff_getElem?_eq_some.mp listed,
      contained⟩
  · rintro ⟨id, tree, registered, contained⟩
    exact ⟨(id, tree),
      Std.ExtTreeMap.mem_toList_iff_getElem?_eq_some.mpr registered, contained⟩

theorem registers_of_get? {id : TreeId} {hash : NodeHash} {tree : Tree}
    {node : Node} (registered : forest.get? id = some tree)
    (inTree : tree.nodes[hash]? = some node) :
    forest.registers hash = true := by
  refine registers_iff.mpr ⟨id, tree, registered, ?_⟩
  rw [Tree.contains, Std.ExtTreeMap.contains_eq_isSome_getElem?, inTree]
  rfl

/-- The view that pruning leaves. -/
def pruning (forest : Forest) : View :=
  { visible := forest.registers, traced := true }

theorem WellFormed.covers_pruning (wellFormed : forest.WellFormed) :
    forest.pruning.Covers forest forest.Located where
  visible located := registers_of_get? located.inForest located.inTree
  registered registered inTree :=
    ⟨registers_of_get? registered inTree,
      wellFormed.located_of_registered registered inTree⟩
  root registered := wellFormed.located_root registered
  child located isChild := wellFormed.located_childAt located isChild

end Forest

namespace Blackboard

variable {forest : Forest}

/-- A blackboard and what pruning makes of it. -/
structure PrunesTo (forest : Forest) (board pruned : Blackboard) : Prop where
  tree : pruned.tree = board.tree
  agent : pruned.agent = board.agent
  globals : pruned.globals = board.globals
  tick : pruned.tick = board.tick
  stream : pruned.stream = board.stream
  tracer : pruned.tracer = board.tracer
  kept : ∀ {id : TreeId} {tree : Tree} {hash : NodeHash},
    forest.get? id = some tree → tree.contains hash = true →
    pruned.states[hash]? = board.states[hash]?
  dropped : ∀ {hash : NodeHash},
    (∀ id tree, forest.get? id = some tree → tree.contains hash = false) →
    pruned.states[hash]? = none
  runningNow : pruned.runningNow =
    board.runningNow.filter fun ref => forest.registers ref.hash
  runningPre : pruned.runningPre =
    board.runningPre.filter fun ref => forest.registers ref.hash

theorem prunesTo_pruneOrphans (forest : Forest) (board : Blackboard) :
    board.PrunesTo forest (board.pruneOrphans forest) where
  tree := rfl
  agent := rfl
  globals := rfl
  tick := rfl
  stream := rfl
  tracer := rfl
  kept {id tree hash} registered contained := by
    have visible : forest.pruning.visible hash = true :=
      Forest.registers_iff.mpr ⟨id, tree, registered, contained⟩
    exact board.states_through visible
  dropped {hash} unknown := by
    have unregistered : ¬ forest.registers hash = true := by
      rw [Forest.registers_iff]
      rintro ⟨id, tree, registered, contained⟩
      rw [unknown id tree registered] at contained
      cases contained
    exact (board.getElem?_through forest.pruning hash).trans
      (if_neg unregistered)
  runningNow := rfl
  runningPre := rfl

theorem pruneOrphans_idem (forest : Forest) (board : Blackboard) :
    (board.pruneOrphans forest).pruneOrphans forest =
      board.pruneOrphans forest := by
  simp only [pruneOrphans, mk.injEq, List.filter_filter, Bool.and_self,
    true_and, and_true]
  apply Std.ExtTreeMap.ext_getElem?
  intro hash
  rw [Std.ExtTreeMap.getElem?_filter', Std.ExtTreeMap.getElem?_filter',
    Option.filter_filter, Bool.and_self]

theorem orphanCount_pruneOrphans (forest : Forest) (board : Blackboard) :
    (board.pruneOrphans forest).orphanCount forest = 0 := by
  rw [orphanCount, pruneOrphans_idem, Nat.sub_self]

end Blackboard

namespace Handler

variable {α : Type} {forest : Forest}

/-- Ticks a handler again and again, once with each fuel. -/
def stepEach (forest : Forest) :
    List Nat → Handler α × α →
      Option (List (Except TickError Status) × (Handler α × α))
  | [], pair => some ([], pair)
  | fuel :: rest, pair => do
    let (result, pair) ← step fuel forest pair
    let (results, pair) ← stepEach forest rest pair
    return (result :: results, pair)

theorem stepEach_through {view : View} {met : Tree → Node → Prop}
    (covers : view.Covers forest met) (fuels : List Nat) (handler : Handler α)
    (agent : α) :
    stepEach forest fuels (handler.through view, agent) =
      (stepEach forest fuels (handler, agent)).map (seenAfter view) := by
  induction fuels generalizing handler agent with
  | nil => rfl
  | cons fuel rest induction =>
      simp only [stepEach, step_through covers, bind]
      cases step fuel forest (handler, agent) with
      | none => rfl
      | some outcome =>
          obtain ⟨result, next, current⟩ := outcome
          dsimp only [Option.map_some, Option.bind_some, seenAfter]
          rw [induction]
          cases stepEach forest rest (next, current) <;> rfl

/-- Two runs of ticks that answer alike and leave alike agents, and blackboards
of which one is the other one pruned. -/
structure Resembles (forest : Forest) {β : Type}
    (plain pruned : β × (Handler α × α)) : Prop where
  results : pruned.1 = plain.1
  agent : pruned.2.2 = plain.2.2
  behaviors : pruned.2.1.behaviors = plain.2.1.behaviors
  config : pruned.2.1.config = plain.2.1.config
  blackboard : Option.Rel (Blackboard.PrunesTo forest) plain.2.1.blackboard
    pruned.2.1.blackboard

theorem resembles_seenAfter {β : Type} (outcome : β × (Handler α × α)) :
    Resembles forest outcome (seenAfter forest.pruning outcome) where
  results := rfl
  agent := rfl
  behaviors := rfl
  config := rfl
  blackboard := by
    obtain ⟨_, ⟨_, _, blackboard⟩, _⟩ := outcome
    cases blackboard with
    | none => exact .none
    | some board => exact .some (board.prunesTo_pruneOrphans forest)

/-- Ticks answer and do after pruning what they do without it, and pruning drops
the states of just those nodes that the forest does not have. -/
theorem pruning_invisible (wellFormed : forest.WellFormed) {handler : Handler α}
    {board : Blackboard} (holds : handler.blackboard = some board) (agent : α) :
    (∀ fuels, Option.Rel (Resembles forest)
      (stepEach forest fuels (handler, agent))
      (stepEach forest fuels
        ({ handler with blackboard := some (board.pruneOrphans forest) },
          agent))) ∧
    board.PrunesTo forest (board.pruneOrphans forest) ∧
    (board.pruneOrphans forest).pruneOrphans forest =
      board.pruneOrphans forest ∧
    (board.pruneOrphans forest).orphanCount forest = 0 := by
  refine ⟨fun fuels => ?_, board.prunesTo_pruneOrphans forest,
    board.pruneOrphans_idem forest, board.orphanCount_pruneOrphans forest⟩
  have pruned : { handler with blackboard := some (board.pruneOrphans forest) } =
      handler.through forest.pruning := by
    rw [through, holds]
    rfl
  rw [pruned, stepEach_through wellFormed.covers_pruning]
  cases stepEach forest fuels (handler, agent) with
  | none => exact .none
  | some outcome => exact .some (resembles_seenAfter outcome)

/-- Work that is removed while the guard waits in it leaves four states behind,
and the ticks after that fail with and without them. -/
theorem removed_work_pruned :
    ∃ session board plain pruned,
      Session.guard.run (Session.dawn ++
        [.edit (.edit ⟨1⟩ (.remove ⟨"work-1"⟩))]) = some session ∧
      session.handler.blackboard = some board ∧
      board.orphanCount session.forest = 4 ∧
      stepEach session.forest [20, 20] (session.handler, (0 : UInt64)) =
        some plain ∧
      stepEach session.forest [20, 20]
        ({ session.handler with
            blackboard := some (board.pruneOrphans session.forest) }, 0) =
        some pruned ∧
      Resembles session.forest plain pruned ∧
      plain.1.map Except.toOption = [some .failure, some .failure] := by
  have checked : (Session.guard.run (Session.dawn ++
      [.edit (.edit ⟨1⟩ (.remove ⟨"work-1"⟩))])).any (fun session =>
        session.handler.blackboard.any
          (fun board => decide (board.orphanCount session.forest = 4)) &&
        (stepEach session.forest [20, 20] (session.handler, (0 : UInt64))).any
          fun plain => decide
            (plain.1.map Except.toOption = [some .failure, some .failure])) =
      true := by
    decide +kernel
  obtain ⟨session, ran, passed⟩ := (Option.any_eq_true _ _).mp checked
  obtain ⟨orphans, passed⟩ := Bool.and_eq_true_iff.mp passed
  obtain ⟨board, holds, four⟩ := (Option.any_eq_true _ _).mp orphans
  obtain ⟨plain, stepped, failed⟩ := (Option.any_eq_true _ _).mp passed
  have sound := Session.sound_run Woodland.sound_empty ran
  have runs := (pruning_invisible sound.wellFormed holds 0).1 [20, 20]
  change Option.Rel _ (stepEach session.forest _ _) _ at runs
  rw [stepped] at runs
  cases isPruned : stepEach session.forest [20, 20]
      ({ session.handler with
          blackboard := some (board.pruneOrphans session.forest) }, (0 : UInt64))
    with
  | none =>
      have missing : Option.Rel (Resembles session.forest) (some plain) none :=
        isPruned ▸ runs
      cases missing
  | some pruned =>
      have related : Option.Rel (Resembles session.forest) (some plain)
          (some pruned) := isPruned ▸ runs
      cases related with
      | some resembles =>
          exact ⟨session, board, plain, pruned, ran, holds,
            of_decide_eq_true four, stepped, isPruned, resembles,
            of_decide_eq_true failed⟩

end Handler

end BehaviorTree
