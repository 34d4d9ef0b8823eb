import Mathlib.Logic.Relation
import BehaviorTree.Proofs.Forest.Edit
import BehaviorTree.Proofs.Pass.Flow

/-!
# Ticks as steps

A tick of a registered node ticks registered nodes only, whatever Transitions
it follows.  So a whole tick is a sequence of steps at registered nodes, and
what every step preserves is preserved by ticks.
-/

namespace BehaviorTree

namespace Forest

/-- The tree is in the forest and the node is registered in the tree. -/
structure Located (forest : Forest) (tree : Tree) (node : Node) : Prop where
  inForest : forest.get? tree.id = some tree
  inTree : tree.nodes[node.hash]? = some node

theorem Located.eq_of_ref {forest : Forest} {tree other : Tree}
    {node found : Node} (located : forest.Located tree node)
    (otherLocated : forest.Located other found)
    (same : tree.refTo node = other.refTo found) :
    tree = other ∧ node = found := by
  have sameId : tree.id = other.id := congrArg NodeRef.tree same
  have sameHash : node.hash = found.hash := congrArg NodeRef.hash same
  have inForest := located.inForest
  rw [sameId, otherLocated.inForest] at inForest
  cases inForest
  have inTree := located.inTree
  rw [sameHash, otherLocated.inTree] at inTree
  cases inTree
  exact ⟨rfl, rfl⟩

theorem node?_refTo {forest : Forest} {tree : Tree} {node : Node}
    (located : forest.Located tree node) :
    forest.node? (tree.refTo node) = some node := by
  rw [node?, Tree.refTo, located.inForest]
  exact located.inTree

/-- What follows a node is a child of it, or the root of the tree to which the
node leads. -/
theorem Located.mem_childrenFollowing_iff {forest : Forest} {tree : Tree}
    {node : Node} (located : forest.Located tree node) {next : NodeRef} :
    next ∈ forest.childrenFollowing (tree.refTo node) ↔
      (node.kind.transitionTarget = none ∧
        ∃ child ∈ node.children, next = ⟨tree.id, child⟩) ∨
      ∃ selector target, node.kind.transitionTarget = some selector ∧
        forest.select selector = some target ∧
        next = ⟨target.id, target.root⟩ := by
  rw [childrenFollowing, node?_refTo located]
  dsimp only
  cases jumps : node.kind.transitionTarget with
  | none => simp [Tree.refTo, eq_comm]
  | some selector =>
      cases selected : forest.select selector with
      | none => simp [selected]
      | some target => simp [selected]

namespace WellFormed

variable {forest : Forest} (wellFormed : forest.WellFormed)
include wellFormed

theorem hash_rootNode {id : TreeId} {tree : Tree}
    (registered : forest.get? id = some tree) :
    tree.rootNode.hash = tree.root := by
  obtain ⟨root, isRoot, _, _⟩ := (wellFormed.trees registered).rootRegistered
  rw [Tree.rootNode, isRoot, Option.getD_some]
  exact (wellFormed.trees registered).keyed isRoot

theorem located_of_registered {id : TreeId} {tree : Tree} {hash : NodeHash}
    {node : Node} (inForest : forest.get? id = some tree)
    (inTree : tree.nodes[hash]? = some node) : forest.Located tree node where
  inForest := by rw [wellFormed.keyed inForest, inForest]
  inTree := by rw [(wellFormed.trees inForest).keyed inTree, inTree]

theorem located_root {id : TreeId} {tree : Tree}
    (registered : forest.get? id = some tree) :
    forest.Located tree tree.rootNode := by
  obtain ⟨root, isRoot, _, _⟩ := (wellFormed.trees registered).rootRegistered
  have inTree : tree.nodes[tree.root]? = some tree.rootNode := by
    rw [Tree.rootNode, isRoot, Option.getD_some]
  exact wellFormed.located_of_registered registered inTree

theorem located_target {selector : TreeSelector} {target : Tree}
    (selected : forest.select selector = some target) :
    forest.Located target target.rootNode := by
  obtain ⟨id, _, registered⟩ := Option.bind_eq_some_iff.mp selected
  exact wellFormed.located_root registered

theorem located_childAt {tree : Tree} {node child : Node} {index : Nat}
    (located : forest.Located tree node)
    (isChild : tree.childAt node index = some child) :
    forest.Located tree child := by
  obtain ⟨hash, _, registered⟩ := Option.bind_eq_some_iff.mp isChild
  exact wellFormed.located_of_registered located.inForest registered

theorem parentOf_childAt {tree : Tree} {node child : Node} {index : Nat}
    (located : forest.Located tree node)
    (isChild : tree.childAt node index = some child) :
    tree.parentOf child.hash = some node.hash := by
  have wellFormed := wellFormed.trees located.inForest
  obtain ⟨hash, listed, registered⟩ := Option.bind_eq_some_iff.mp isChild
  obtain ⟨found, isFound, parent⟩ :=
    wellFormed.linked located.inTree (List.mem_of_getElem? listed)
  rw [registered] at isFound
  cases isFound
  rw [wellFormed.keyed registered, Tree.parentOf_eq registered, parent]

theorem mem_childrenFollowing_childAt {tree : Tree} {node child : Node}
    {index : Nat} (located : forest.Located tree node)
    (plain : node.kind.transitionTarget = none)
    (isChild : tree.childAt node index = some child) :
    tree.refTo child ∈ forest.childrenFollowing (tree.refTo node) := by
  obtain ⟨hash, listed, registered⟩ := Option.bind_eq_some_iff.mp isChild
  have inTree := (wellFormed.trees located.inForest).keyed registered
  exact located.mem_childrenFollowing_iff.mpr (.inl ⟨plain, hash,
    List.mem_of_getElem? listed, by rw [Tree.refTo, inTree]⟩)

theorem mem_childrenFollowing_target {tree target : Tree} {node : Node}
    {selector : TreeSelector} (located : forest.Located tree node)
    (jumps : node.kind.transitionTarget = some selector)
    (selected : forest.select selector = some target) :
    target.refTo target.rootNode ∈
      forest.childrenFollowing (tree.refTo node) := by
  have inForest := (wellFormed.located_target selected).inForest
  exact located.mem_childrenFollowing_iff.mpr (.inr ⟨selector, target, jumps,
    selected, by rw [Tree.refTo, wellFormed.hash_rootNode inForest]⟩)

end WellFormed

end Forest

open BehaviorTree.Pass

variable {α : Type} {setting : Setting α} {tree : Tree} {node : Node}
  {before after : Pass α}

/-- The ticks of a flow are ticks of the registered nodes that follow. -/
theorem Pass.Flow.locate {ticks : Pass.Ticks α}
    (wellFormed : setting.forest.WellFormed)
    (located : setting.forest.Located tree node)
    (flow : Flow setting ticks tree node before after) :
    Flow setting (fun next child before status after =>
        setting.forest.Located next child ∧
        next.refTo child ∈ setting.forest.childrenFollowing (tree.refTo node) ∧
        ticks next child before status after)
      tree node before after := by
  induction flow with
  | start => exact .start
  | aside _ aside induction => exact .aside induction aside
  | child _ plain isChild ticked induction =>
      exact .child induction plain isChild
        ⟨wellFormed.located_childAt located isChild,
          wellFormed.mem_childrenFollowing_childAt located plain isChild, ticked⟩
  | jump _ jumps isTarget shallow ticked induction =>
      exact .jump induction jumps isTarget shallow
        ⟨wellFormed.located_target isTarget,
          wellFormed.mem_childrenFollowing_target located jumps isTarget, ticked⟩

/-- A tick is refused, or enters its node, flows through ticks of the nodes that
follow and leaves the node. -/
theorem PassM.tick_flow (wellFormed : setting.forest.WellFormed) {fuel : Nat}
    {status : Status} (located : setting.forest.Located tree node)
    (ended : tick setting (fuel + 1) tree node before = some (status, after)) :
    (status = .error ∧ Refuses tree node before after) ∨
    ∃ opened body, Enters tree node before opened ∧
      update setting fuel (tick setting fuel) tree node opened =
        some (status, body) ∧
      Flow setting (fun next child before' status' after' =>
          setting.forest.Located next child ∧
          next.refTo child ∈ setting.forest.childrenFollowing (tree.refTo node) ∧
          tick setting fuel next child before' = some (status', after') ∧
          (node.kind.isParallel = true ∨ status = .running ∨
            status' ≠ .running))
        tree node opened body ∧
      Leaves tree node status body after := by
  rcases tick_cases ended with refused | ⟨opened, body, enters, updated, leaves⟩
  · exact .inl refused
  refine .inr ⟨opened, body, enters, updated, ?_, leaves⟩
  have along : Ended setting (fun _ => tick setting fuel) tree node opened
      status body :=
    (ended_update False.elim).of_eq fuel updated
  apply (along.locate wellFormed located).mono
  intro next child before' status' after' ⟨found, follows, ⟨_, ticked⟩, calm⟩
  refine ⟨found, follows, ticked, ?_⟩
  rcases calm with isParallel | isRunning | notRunning
  · exact .inl isParallel
  · exact .inr (.inl (Option.some.inj isRunning))
  · exact .inr (.inr notRunning)

/-- One step of a pass.  Only a node that was entered is left. -/
inductive Pass.Step (forest : Forest) : Pass α → Pass α → Prop where
  | aside {tree : Tree} {node : Node} {before after : Pass α} :
      forest.Located tree node →
      Aside tree node before after →
      Step forest before after
  | refuse {tree : Tree} {node : Node} {before after : Pass α} :
      forest.Located tree node →
      Refuses tree node before after →
      Step forest before after
  | enter {tree : Tree} {node : Node} {before after : Pass α} :
      forest.Located tree node →
      Enters tree node before after →
      Step forest before after
  | leave {tree : Tree} {node : Node} {status : Status} {before after : Pass α} :
      forest.Located tree node →
      .entered (tree.refTo node) ∈ before.log →
      Leaves tree node status before after →
      Step forest before after
  | jump {before : Pass α} (depth : Nat) :
      Step forest before { before with depth }

/-- Any number of steps of a pass. -/
abbrev Pass.Steps (forest : Forest) : Pass α → Pass α → Prop :=
  Relation.ReflTransGen (Step forest)

/-- Steps add to the journal, and abandon nothing. -/
theorem Pass.Step.log {forest : Forest} (step : Step forest before after) :
    ∃ growth, after.log = before.log ++ growth ∧
      ∀ ref, .abandoned ref ∉ growth := by
  cases step with
  | aside _ aside =>
      obtain ⟨remarks, log, areRemarks⟩ := aside.log
      refine ⟨remarks, log, fun ref member => ?_⟩
      have remark := areRemarks _ member
      cases remark
  | refuse _ refuses => exact ⟨_, refuses.log, by simp⟩
  | enter _ enters =>
      refine ⟨_, enters.log, fun ref => ?_⟩
      split_ifs
      · simp
      · simp
  | leave _ _ leaves =>
      refine ⟨_, leaves.log, fun ref => ?_⟩
      split_ifs
      · simp
      · simp
  | jump => exact ⟨[], (List.append_nil _).symm, by simp⟩

theorem Pass.Steps.log {forest : Forest} (steps : Steps forest before after) :
    ∃ growth, after.log = before.log ++ growth ∧
      ∀ ref, .abandoned ref ∉ growth := by
  induction steps with
  | refl => exact ⟨[], (List.append_nil _).symm, by simp⟩
  | tail _ step induction =>
      obtain ⟨earlier, isEarlier, firstKept⟩ := induction
      obtain ⟨later, isLater, thenKept⟩ := step.log
      refine ⟨earlier ++ later, by rw [isLater, isEarlier, List.append_assoc],
        fun ref member => ?_⟩
      rcases List.mem_append.mp member with member | member
      · exact firstKept ref member
      · exact thenKept ref member

theorem Pass.Flow.steps (located : setting.forest.Located tree node)
    (flow : Flow setting
      (fun _ _ before _ after => Steps setting.forest before after)
      tree node before after) :
    Steps setting.forest before after := by
  induction flow with
  | start => exact .refl
  | aside _ aside induction => exact induction.tail (.aside located aside)
  | child _ _ _ ticked induction => exact induction.trans ticked
  | jump _ _ _ _ ticked induction =>
      exact ((induction.tail (.jump _)).trans ticked).tail (.jump _)

/-- A tick is a sequence of steps. -/
theorem PassM.steps_of_tick (wellFormed : setting.forest.WellFormed)
    {fuel : Nat} {status : Status} (located : setting.forest.Located tree node)
    (ended : tick setting fuel tree node before = some (status, after)) :
    Steps setting.forest before after := by
  induction fuel generalizing tree node before status after with
  | zero => cases ended
  | succ fuel induction =>
      rcases tick_flow wellFormed located ended with
        ⟨_, refused⟩ | ⟨opened, body, enters, _, flow, leaves⟩
      · exact .single (.refuse located refused)
      have steps : Steps setting.forest opened body :=
        Flow.steps located (flow.mono fun ⟨found, _, ticked, _⟩ =>
          induction found ticked)
      have entered : .entered (tree.refTo node) ∈ body.log := by
        obtain ⟨growth, grows, _⟩ := steps.log
        rw [grows, enters.log]
        simp
      exact (Relation.ReflTransGen.head (.enter located enters) steps).tail
        (.leave located entered leaves)

/-- A tick begins with the node that is ticked. -/
theorem PassM.begins_of_tick (wellFormed : setting.forest.WellFormed)
    {fuel : Nat} {status : Status} (located : setting.forest.Located tree node)
    (ended : tick setting fuel tree node before = some (status, after)) :
    ∃ growth, after.log = before.log ++ growth ∧
      (∀ ref, .abandoned ref ∉ growth) ∧
      (growth.head? = some (.entered (tree.refTo node)) ∨
        growth.head? = some (.refused (tree.refTo node))) := by
  obtain ⟨growth, log, keeps⟩ := (steps_of_tick wellFormed located ended).log
  refine ⟨growth, log, keeps, ?_⟩
  cases fuel with
  | zero => cases ended
  | succ fuel =>
      rcases tick_flow wellFormed located ended with
        ⟨_, refused⟩ | ⟨opened, body, enters, updated, flow, leaves⟩
      · right
        rw [refused.log, List.append_cancel_left_eq] at log
        rw [← log]
        rfl
      · left
        have steps : Steps setting.forest opened body :=
          Flow.steps located (flow.mono fun ⟨found, _, ticked, _⟩ =>
            steps_of_tick wellFormed found ticked)
        obtain ⟨middle, isMiddle, _⟩ := steps.log
        rw [leaves.log, isMiddle, enters.log, List.append_assoc,
          List.append_assoc, List.append_cancel_left_eq] at log
        rw [← log]
        rfl

end BehaviorTree
