import BehaviorTree.Proofs.Pass.Abandoning
import BehaviorTree.Proofs.Tree.Walking

/-!
# Walks across Transitions

The walk that follows Transitions meets every node of every tree that can be
reached through them once, and no other node.
-/

namespace BehaviorTree

namespace Forest

/-- The reference is to `top` or to a node below it, in the same tree. -/
def Below (forest : Forest) (top ref : NodeRef) : Prop :=
  ∃ tree, forest.get? top.tree = some tree ∧ ref.tree = top.tree ∧
    tree.Within top.hash ref.hash

/-- A Transition of the first tree leads to the second one. -/
def Links (forest : Forest) (id next : TreeId) : Prop :=
  ∃ tree node selector target,
    forest.Located tree node ∧ tree.id = id ∧
    node.kind.transitionTarget = some selector ∧
    forest.select selector = some target ∧ target.id = next

/-- Any number of Transitions lead from one tree to another. -/
abbrev Reaches (forest : Forest) : TreeId → TreeId → Prop :=
  Relation.ReflTransGen forest.Links

/-- Every Root and decorator has a child in the trees to which a tree leads. -/
def Filled (forest : Forest) (id : TreeId) : Prop :=
  ∀ ⦃tree : Tree⦄ ⦃node : Node⦄, forest.Located tree node →
    forest.Reaches id tree.id → node.arity = .single → node.children ≠ []

/-- The nodes that follow a node, and what takes its place on the stack of a
walk, with the trees that have been entered afterwards. -/
inductive Expands (forest : Forest) (entered : List TreeId) (ref : NodeRef) :
    List NodeRef → List TreeId → List NodeRef → Prop where
  | children {tree : Tree} {node : Node} :
      forest.Located tree node →
      tree.refTo node = ref →
      node.kind.transitionTarget = none →
      Expands forest entered ref
        (node.children.map fun child => ⟨tree.id, child⟩) entered
        (node.children.map fun child => ⟨tree.id, child⟩)
  | enter {tree target : Tree} {node : Node} {selector : TreeSelector} :
      forest.Located tree node →
      tree.refTo node = ref →
      node.kind.transitionTarget = some selector →
      forest.select selector = some target →
      target.id ∉ entered →
      Expands forest entered ref [target.refTo target.rootNode]
        (target.id :: entered) [target.refTo target.rootNode]
  | skip {tree target : Tree} {node : Node} {selector : TreeSelector} :
      forest.Located tree node →
      tree.refTo node = ref →
      node.kind.transitionTarget = some selector →
      forest.select selector = some target →
      target.id ∈ entered →
      Expands forest entered ref [target.refTo target.rootNode] entered []
  | unresolved {tree : Tree} {node : Node} {selector : TreeSelector} :
      forest.Located tree node →
      tree.refTo node = ref →
      node.kind.transitionTarget = some selector →
      forest.select selector = none →
      Expands forest entered ref [] entered []

theorem isTreeRoot_iff {forest : Forest} {tree : Tree} {hash : NodeHash}
    (registered : forest.get? tree.id = some tree) :
    forest.isTreeRoot ⟨tree.id, hash⟩ = true ↔ hash = tree.root := by
  simp [isTreeRoot, registered, eq_comm]

theorem firstEntries_children {forest : Forest} {tree : Tree} {hashes : List NodeHash}
    (registered : forest.get? tree.id = some tree)
    (below : ∀ hash ∈ hashes, hash ≠ tree.root) (entered : List TreeId) :
    forest.firstEntries entered (hashes.map fun hash => ⟨tree.id, hash⟩) =
      (entered, hashes.map fun hash => ⟨tree.id, hash⟩) := by
  induction hashes with
  | nil => rfl
  | cons hash rest induction =>
      have notRoot : ¬ forest.isTreeRoot ⟨tree.id, hash⟩ = true := by
        rw [isTreeRoot_iff registered]
        exact below hash List.mem_cons_self
      rw [List.map_cons, firstEntries, induction fun other member =>
        below other (List.mem_cons_of_mem _ member)]
      exact if_neg notRoot

namespace WellFormed

variable {forest : Forest} (wellFormed : forest.WellFormed)
include wellFormed

theorem firstEntries_root {target : Tree} {selector : TreeSelector}
    (selected : forest.select selector = some target) (entered : List TreeId) :
    forest.firstEntries entered [target.refTo target.rootNode] =
      if target.id ∈ entered then (entered, [])
      else (target.id :: entered, [target.refTo target.rootNode]) := by
  have located := wellFormed.located_target selected
  have isRoot : forest.isTreeRoot (target.refTo target.rootNode) = true := by
    rw [Tree.refTo, isTreeRoot_iff located.inForest,
      wellFormed.hash_rootNode located.inForest]
  rw [firstEntries, firstEntries, isRoot]
  exact if_pos rfl

theorem ne_root_of_child {tree : Tree} {node : Node} {child : NodeHash}
    (located : forest.Located tree node) (member : child ∈ node.children) :
    child ≠ tree.root :=
  (wellFormed.trees located.inForest).ne_root_of_parentOf
    (((wellFormed.trees located.inForest).mem_children_iff located.inTree).mp
      member)

theorem expands {ref : NodeRef} (known : forest.Knows ref)
    (entered : List TreeId) :
    forest.Expands entered ref (forest.childrenFollowing ref)
      (forest.firstEntries entered (forest.childrenFollowing ref)).1
      (forest.firstEntries entered (forest.childrenFollowing ref)).2 := by
  obtain ⟨tree, node, located, rfl⟩ := known
  rw [childrenFollowing, node?_refTo located]
  dsimp only
  cases jumps : node.kind.transitionTarget with
  | none =>
      have plain := firstEntries_children located.inForest
        (fun _ member => wellFormed.ne_root_of_child located member) entered
      dsimp only [Tree.refTo]
      rw [plain]
      exact .children located rfl jumps
  | some selector =>
      dsimp only
      cases selected : forest.select selector with
      | none => exact .unresolved located rfl jumps selected
      | some target =>
          have targetLocated := wellFormed.located_target selected
          have root : (⟨target.id, target.root⟩ : NodeRef) =
              target.refTo target.rootNode := by
            rw [Tree.refTo, wellFormed.hash_rootNode targetLocated.inForest]
          dsimp only
          rw [root, wellFormed.firstEntries_root selected]
          by_cases visited : target.id ∈ entered
          · rw [if_pos visited]
            exact .skip located rfl jumps selected visited
          · rw [if_neg visited]
            exact .enter located rfl jumps selected visited

theorem known_child {tree : Tree} {node : Node} {child : NodeHash}
    (located : forest.Located tree node) (member : child ∈ node.children) :
    forest.Knows ⟨tree.id, child⟩ := by
  obtain ⟨found, registered, _⟩ :=
    (wellFormed.trees located.inForest).linked located.inTree member
  refine ⟨tree, found, wellFormed.located_of_registered located.inForest
    registered, ?_⟩
  rw [Tree.refTo, (wellFormed.trees located.inForest).keyed registered]

theorem known_kept {entered after : List TreeId} {ref : NodeRef}
    {followers kept : List NodeRef}
    (expands : forest.Expands entered ref followers after kept) :
    ∀ next ∈ kept, forest.Knows next := by
  intro next member
  cases expands with
  | children located =>
      obtain ⟨child, isListed, rfl⟩ := List.mem_map.mp member
      exact wellFormed.known_child located isListed
  | @enter _ target _ _ _ _ _ selected =>
      rw [List.mem_singleton.mp member]
      exact ⟨target, target.rootNode, wellFormed.located_target selected, rfl⟩
  | skip => cases member
  | unresolved => cases member

end WellFormed

/-- The stack of a walk: no node lies below two of its nodes, and all of them
are of trees that have been entered. -/
structure Pending (forest : Forest) (entered : List TreeId)
    (stack : List NodeRef) : Prop where
  known : ∀ ref ∈ stack, forest.Knows ref
  entered : ∀ ref ∈ stack, ref.tree ∈ entered
  apart : stack.Pairwise fun first second =>
    ∀ ref, forest.Below first ref → ¬ forest.Below second ref

theorem Below.refl {forest : Forest} {ref : NodeRef}
    (known : forest.Knows ref) : forest.Below ref ref := by
  obtain ⟨tree, node, located, rfl⟩ := known
  exact ⟨tree, located.inForest, rfl, .top⟩

theorem below_child {forest : Forest} (wellFormed : forest.WellFormed)
    {tree : Tree} {node : Node} {child : NodeHash} {ref : NodeRef}
    (located : forest.Located tree node) (member : child ∈ node.children)
    (below : forest.Below ⟨tree.id, child⟩ ref) :
    forest.Below (tree.refTo node) ref ∧ ref ≠ tree.refTo node := by
  obtain ⟨found, registered, sameTree, within⟩ := below
  have located' := located.inForest
  rw [registered] at located'
  cases located'
  have wellFormedTree := wellFormed.trees registered
  have above := (wellFormedTree.mem_children_iff located.inTree).mp member
  refine ⟨⟨tree, registered, sameTree, (Tree.Within.child above rfl).trans within⟩,
    fun same => ?_⟩
  rw [same] at within
  exact wellFormedTree.not_within_child above within

namespace Pending

variable {forest : Forest} {entered after : List TreeId} {head : NodeRef}
  {rest followers kept : List NodeRef}

theorem tail (pending : forest.Pending entered (head :: rest)) :
    forest.Pending entered rest where
  known ref member := pending.known ref (List.mem_cons_of_mem _ member)
  entered ref member := pending.entered ref (List.mem_cons_of_mem _ member)
  apart := (List.pairwise_cons.mp pending.apart).2

theorem expand (wellFormed : forest.WellFormed)
    (pending : forest.Pending entered (head :: rest))
    (expands : forest.Expands entered head followers after kept) :
    forest.Pending after (kept ++ rest) := by
  have known : ∀ ref ∈ kept ++ rest, forest.Knows ref := fun ref member =>
    (List.mem_append.mp member).elim (wellFormed.known_kept expands ref)
      (pending.tail.known ref)
  cases expands with
  | @children tree node located isHead plain =>
      subst isHead
      have wellFormedTree := wellFormed.trees located.inForest
      refine ⟨known, fun ref member => ?_, ?_⟩
      · rcases List.mem_append.mp member with isChild | inRest
        · obtain ⟨child, isListed, rfl⟩ := List.mem_map.mp isChild
          exact pending.entered (tree.refTo node) List.mem_cons_self
        · exact pending.tail.entered ref inRest
      · refine List.pairwise_append.mpr ⟨?_, pending.tail.apart, ?_⟩
        · apply List.pairwise_map.mpr
          apply (wellFormedTree.apart_children located.inTree).imp
          intro first second apart ref belowFirst belowSecond
          obtain ⟨found, registered, _, firstWithin⟩ := belowFirst
          obtain ⟨other, otherRegistered, _, secondWithin⟩ := belowSecond
          rw [located.inForest] at registered otherRegistered
          cases registered
          cases otherRegistered
          exact apart ref.hash firstWithin secondWithin
        · intro child isChild other inRest ref belowChild
          obtain ⟨hash, isListed, rfl⟩ := List.mem_map.mp isChild
          exact (List.pairwise_cons.mp pending.apart).1 other inRest ref
            (below_child wellFormed located isListed belowChild).1
  | @enter tree target node selector located isHead jumps selected isNew =>
      refine ⟨known, fun ref member => ?_, ?_⟩
      · rcases List.mem_append.mp member with isRoot | inRest
        · rw [List.mem_singleton.mp isRoot]
          exact List.mem_cons_self
        · exact List.mem_cons_of_mem _ (pending.tail.entered ref inRest)
      · refine List.pairwise_cons.mpr ⟨?_, pending.tail.apart⟩
        intro other inRest ref belowRoot belowOther
        obtain ⟨_, _, inTarget, _⟩ := belowRoot
        obtain ⟨_, _, inOther, _⟩ := belowOther
        have sameTree : other.tree = target.id := inOther.symm.trans inTarget
        exact isNew (sameTree ▸ pending.tail.entered other inRest)
  | skip => exact pending.tail
  | unresolved => exact pending.tail

end Pending

theorem eq_of_isTreeRoot {forest : Forest} {first second : NodeRef}
    (firstRoot : forest.isTreeRoot first = true)
    (secondRoot : forest.isTreeRoot second = true)
    (sameTree : first.tree = second.tree) : first = second := by
  obtain ⟨id, firstHash⟩ := first
  obtain ⟨_, secondHash⟩ := second
  cases sameTree
  rw [isTreeRoot] at firstRoot secondRoot
  dsimp only at firstRoot secondRoot
  cases registered : forest.get? id with
  | none => simp [registered] at firstRoot
  | some tree =>
      rw [registered] at firstRoot secondRoot
      rw [← of_decide_eq_true firstRoot, ← of_decide_eq_true secondRoot]

namespace Expands

variable {forest : Forest} {entered after : List TreeId} {head ref : NodeRef}
  {followers kept : List NodeRef}

theorem entered_subset
    (expands : forest.Expands entered head followers after kept) :
    entered ⊆ after := by
  cases expands with
  | enter => exact List.subset_cons_self _ _
  | _ => exact List.Subset.refl _

/-- What is kept lies below the node, or in a tree that is entered. -/
theorem below (wellFormed : forest.WellFormed)
    (expands : forest.Expands entered head followers after kept)
    {top : NodeRef} (member : top ∈ kept) (below : forest.Below top ref) :
    forest.Below head ref ∧ ref ≠ head ∨ ref.tree ∉ entered := by
  cases expands with
  | children located isHead =>
      subst isHead
      obtain ⟨child, isListed, rfl⟩ := List.mem_map.mp member
      exact .inl (below_child wellFormed located isListed below)
  | @enter _ target _ _ _ _ _ _ isNew =>
      cases List.mem_singleton.mp member
      obtain ⟨_, _, sameTree, _⟩ := below
      have inTarget : ref.tree = target.id := sameTree
      exact .inr fun visited => isNew (inTarget ▸ visited)
  | skip => cases member
  | unresolved => cases member

theorem kept_or_entered (wellFormed : forest.WellFormed)
    (expands : forest.Expands entered head followers after kept)
    (follows : ref ∈ followers) :
    ref ∈ kept ∨ forest.isTreeRoot ref = true ∧ ref.tree ∈ entered := by
  cases expands with
  | children => exact .inl follows
  | enter => exact .inl follows
  | skip _ _ _ selected visited =>
      cases List.mem_singleton.mp follows
      have located := wellFormed.located_target selected
      refine .inr ⟨?_, visited⟩
      rw [Tree.refTo, isTreeRoot_iff located.inForest,
        wellFormed.hash_rootNode located.inForest]
  | unresolved => cases follows

theorem entered_or_kept (wellFormed : forest.WellFormed)
    (expands : forest.Expands entered head followers after kept)
    (isRoot : forest.isTreeRoot ref = true) (visited : ref.tree ∈ after) :
    ref.tree ∈ entered ∨ ref ∈ kept := by
  cases expands with
  | enter _ _ _ selected _ =>
      have located := wellFormed.located_target selected
      rcases List.mem_cons.mp visited with isTarget | visited
      · right
        apply List.mem_singleton.mpr
        refine eq_of_isTreeRoot isRoot ?_ isTarget
        rw [Tree.refTo, isTreeRoot_iff located.inForest,
          wellFormed.hash_rootNode located.inForest]
      · exact .inl visited
  | _ => exact .inl visited

theorem reaches {id : TreeId}
    (expands : forest.Expands entered head followers after kept)
    (reached : forest.Reaches id head.tree) (member : ref ∈ kept) :
    forest.Reaches id ref.tree := by
  cases expands with
  | children _ isHead =>
      obtain ⟨child, _, rfl⟩ := List.mem_map.mp member
      cases isHead
      exact reached
  | enter located isHead jumps selected =>
      cases List.mem_singleton.mp member
      cases isHead
      exact reached.tail ⟨_, _, _, _, located, rfl, jumps, selected, rfl⟩
  | skip => cases member
  | unresolved => cases member

end Expands

@[simp] theorem walkWithin_nil (forest : Forest) (fuel : Nat)
    (entered : List TreeId) : forest.walkWithin fuel entered [] = [] := by
  cases fuel <;> rfl

theorem walkWithin_cons (forest : Forest) (fuel : Nat) (entered : List TreeId)
    (head : NodeRef) (rest : List NodeRef) :
    forest.walkWithin (fuel + 1) entered (head :: rest) =
      head :: forest.walkWithin fuel
        (forest.firstEntries entered (forest.childrenFollowing head)).1
        ((forest.firstEntries entered (forest.childrenFollowing head)).2 ++ rest) :=
  rfl

section Walks

variable {forest : Forest} (wellFormed : forest.WellFormed) {fuel : Nat}
  {entered : List TreeId} {stack : List NodeRef}
include wellFormed

/-- A walk meets nodes below its stack, and nodes of trees that it enters. -/
theorem walkWithin_sound (pending : forest.Pending entered stack)
    {ref : NodeRef} (member : ref ∈ forest.walkWithin fuel entered stack) :
    forest.Knows ref ∧
      ((∃ top ∈ stack, forest.Below top ref) ∨ ref.tree ∉ entered) := by
  induction fuel generalizing entered stack with
  | zero => simp [walkWithin] at member
  | succ fuel induction =>
      cases stack with
      | nil => simp at member
      | cons head rest =>
          have known := pending.known head List.mem_cons_self
          have expands := wellFormed.expands known entered
          rw [walkWithin] at member
          rcases List.mem_cons.mp member with rfl | member
          · exact ⟨known, .inl ⟨ref, List.mem_cons_self, .refl known⟩⟩
          obtain ⟨isKnown, found⟩ :=
            induction (pending.expand wellFormed expands) member
          refine ⟨isKnown, ?_⟩
          rcases found with ⟨top, onStack, below⟩ | isNew
          · rcases List.mem_append.mp onStack with isKept | inRest
            · rcases expands.below wellFormed isKept below with
                ⟨belowHead, _⟩ | isNew
              · exact .inl ⟨head, List.mem_cons_self, belowHead⟩
              · exact .inr isNew
            · exact .inl ⟨top, List.mem_cons_of_mem _ inRest, below⟩
          · exact .inr fun visited => isNew (expands.entered_subset visited)

theorem walkWithin_reaches (pending : forest.Pending entered stack)
    {id : TreeId} (reached : ∀ ref ∈ stack, forest.Reaches id ref.tree)
    {ref : NodeRef} (member : ref ∈ forest.walkWithin fuel entered stack) :
    forest.Reaches id ref.tree := by
  induction fuel generalizing entered stack with
  | zero => simp [walkWithin] at member
  | succ fuel induction =>
      cases stack with
      | nil => simp at member
      | cons head rest =>
          have known := pending.known head List.mem_cons_self
          have expands := wellFormed.expands known entered
          rw [walkWithin] at member
          rcases List.mem_cons.mp member with rfl | member
          · exact reached ref List.mem_cons_self
          refine induction (pending.expand wellFormed expands) ?_ member
          intro top onStack
          rcases List.mem_append.mp onStack with isKept | inRest
          · exact expands.reaches (reached head List.mem_cons_self) isKept
          · exact reached top (List.mem_cons_of_mem _ inRest)

/-- A walk meets no node twice. -/
theorem walkWithin_nodup (pending : forest.Pending entered stack) :
    (forest.walkWithin fuel entered stack).Nodup := by
  induction fuel generalizing entered stack with
  | zero => simp [walkWithin]
  | succ fuel induction =>
      cases stack with
      | nil => simp
      | cons head rest =>
          have known := pending.known head List.mem_cons_self
          have visited := pending.entered head List.mem_cons_self
          have expands := wellFormed.expands known entered
          have remaining := pending.expand wellFormed expands
          rw [walkWithin]
          refine List.nodup_cons.mpr ⟨fun member => ?_, induction remaining⟩
          rcases (walkWithin_sound wellFormed remaining member).2 with
            ⟨top, onStack, below⟩ | isNew
          · rcases List.mem_append.mp onStack with isKept | inRest
            · rcases expands.below wellFormed isKept below with
                ⟨_, different⟩ | isNew
              · exact different rfl
              · exact isNew visited
            · exact (List.pairwise_cons.mp pending.apart).1 top inRest head
                (.refl known) below
          · exact isNew (expands.entered_subset visited)

/-- A walk that did not use up its fuel met its stack, and with every node the
nodes that follow, roots of trees apart that were entered before. -/
theorem walkWithin_complete (pending : forest.Pending entered stack)
    (finished : (forest.walkWithin fuel entered stack).length < fuel) :
    (∀ ref ∈ stack, ref ∈ forest.walkWithin fuel entered stack) ∧
    ∀ ref ∈ forest.walkWithin fuel entered stack,
      ∀ next ∈ forest.childrenFollowing ref,
        next ∈ forest.walkWithin fuel entered stack ∨
          forest.isTreeRoot next = true ∧ next.tree ∈ entered := by
  induction fuel generalizing entered stack with
  | zero => simp [walkWithin] at finished
  | succ fuel induction =>
      cases stack with
      | nil => simp
      | cons head rest =>
          have known := pending.known head List.mem_cons_self
          have expands := wellFormed.expands known entered
          rw [walkWithin, List.length_cons] at finished
          rw [walkWithin]
          obtain ⟨meets, closed⟩ := induction (pending.expand wellFormed expands)
            (Nat.lt_of_succ_lt_succ finished)
          refine ⟨fun ref onStack => ?_, fun ref member next follows => ?_⟩
          · rcases List.mem_cons.mp onStack with rfl | inRest
            · exact List.mem_cons_self
            · exact List.mem_cons_of_mem _
                (meets ref (List.mem_append_right _ inRest))
          have keptMet : ∀ other, other ∈ (forest.firstEntries entered
              (forest.childrenFollowing head)).2 → _ := fun other isKept =>
            List.mem_cons_of_mem head (meets other (List.mem_append_left _ isKept))
          rcases List.mem_cons.mp member with rfl | member
          · exact (expands.kept_or_entered wellFormed follows).imp
              (keptMet next) fun visited => visited
          · rcases closed ref member next follows with isMet | ⟨isRoot, visited⟩
            · exact .inl (List.mem_cons_of_mem _ isMet)
            · rcases expands.entered_or_kept wellFormed isRoot visited with
                visited | isKept
              · exact .inr ⟨isRoot, visited⟩
              · exact .inl (keptMet next isKept)

end Walks

theorem walkWithin_eq_take (forest : Forest) (fuel : Nat)
    (entered : List TreeId) (stack : List NodeRef) :
    forest.walkWithin fuel entered stack =
      (forest.walkWithin (fuel + 1) entered stack).take fuel := by
  induction fuel generalizing entered stack with
  | zero => simp [walkWithin]
  | succ fuel induction =>
      cases stack with
      | nil => simp
      | cons head rest =>
          rw [walkWithin, walkWithin, List.take_succ_cons]
          exact congrArg _ (induction _ _)

theorem values_eq_map_toList (trees : Std.ExtTreeMap TreeId Tree) :
    trees.values = trees.toList.map (·.2) := by
  have folded : trees.values = trees.foldr (fun _ tree rest => tree :: rest) [] := by
    rcases trees with ⟨⟨inner⟩⟩
    induction inner using Quotient.inductionOn with
    | h inner => rfl
  rw [folded, Std.ExtTreeMap.foldr_eq_foldr_toList]
  induction trees.toList with
  | nil => rfl
  | cons entry rest induction => exact congrArg _ induction

/-- Distinct nodes of a forest are no more than it has. -/
theorem length_le_nodeCount {forest : Forest} {refs : List NodeRef}
    (distinct : refs.Nodup) (known : ∀ ref ∈ refs, forest.Knows ref) :
    refs.length ≤ forest.nodeCount := by
  let all := forest.trees.toList.flatMap fun entry =>
    entry.2.nodes.keys.map fun hash => (⟨entry.1, hash⟩ : NodeRef)
  have counted : all.length = forest.nodeCount := by
    rw [nodeCount, values_eq_map_toList, List.map_map, List.length_flatMap]
    congr 1
    apply List.map_congr_left
    intro entry _
    rw [List.length_map, Std.ExtTreeMap.length_keys]
    rfl
  rw [← counted]
  refine (List.subperm_of_subset distinct fun ref member => ?_).length_le
  obtain ⟨tree, node, located, rfl⟩ := known ref member
  refine List.mem_flatMap.mpr ⟨(tree.id, tree), ?_, List.mem_map.mpr
    ⟨node.hash, ?_, rfl⟩⟩
  · exact Std.ExtTreeMap.mem_toList_iff_getElem?_eq_some.mpr located.inForest
  · rw [Std.ExtTreeMap.mem_keys, Std.ExtTreeMap.mem_iff_isSome_getElem?,
      located.inTree]
    rfl

section WalkFollowing

variable {forest : Forest} (wellFormed : forest.WellFormed) {id : TreeId}
include wellFormed

theorem pending_root {tree : Tree} (registered : forest.get? tree.id = some tree) :
    forest.Pending [tree.id] [tree.refTo tree.rootNode] where
  known ref member := by
    rw [List.mem_singleton.mp member]
    exact ⟨tree, tree.rootNode, wellFormed.located_root registered, rfl⟩
  entered ref member := by
    rw [List.mem_singleton.mp member]
    exact List.mem_singleton_self _
  apart := List.pairwise_singleton _ _

/-- The fuel of a walk from a root is enough: another step changes nothing. -/
theorem walkFollowing_eq {tree : Tree}
    (registered : forest.get? tree.id = some tree) :
    forest.walkFollowing tree.id = forest.walkWithin (forest.nodeCount + 1)
      [tree.id] [tree.refTo tree.rootNode] ∧
    (forest.walkFollowing tree.id).length < forest.nodeCount + 1 := by
  have pending := pending_root wellFormed registered
  have bound : (forest.walkWithin (forest.nodeCount + 1) [tree.id]
      [tree.refTo tree.rootNode]).length ≤ forest.nodeCount :=
    length_le_nodeCount (walkWithin_nodup wellFormed pending) fun _ member =>
      (walkWithin_sound wellFormed pending member).1
  have same : forest.walkFollowing tree.id =
      forest.walkWithin (forest.nodeCount + 1) [tree.id]
        [tree.refTo tree.rootNode] := by
    rw [walkFollowing, registered, Tree.refTo,
      wellFormed.hash_rootNode registered]
    dsimp only
    rw [walkWithin_eq_take, List.take_of_length_le]
    rwa [Tree.refTo, wellFormed.hash_rootNode registered] at bound
  exact ⟨same, same ▸ Nat.lt_succ_of_le bound⟩

theorem walkFollowing_nodup {tree : Tree}
    (registered : forest.get? tree.id = some tree) :
    (forest.walkFollowing tree.id).Nodup := by
  rw [(walkFollowing_eq wellFormed registered).1]
  exact walkWithin_nodup wellFormed (pending_root wellFormed registered)

theorem mem_walkFollowing_root {tree : Tree}
    (registered : forest.get? tree.id = some tree) :
    tree.refTo tree.rootNode ∈ forest.walkFollowing tree.id := by
  obtain ⟨same, finished⟩ := walkFollowing_eq wellFormed registered
  rw [same] at finished ⊢
  exact (walkWithin_complete wellFormed (pending_root wellFormed registered)
    finished).1 _ (List.mem_singleton_self _)

theorem walkFollowing_closed {tree : Tree}
    (registered : forest.get? tree.id = some tree) {ref next : NodeRef}
    (member : ref ∈ forest.walkFollowing tree.id)
    (follows : next ∈ forest.childrenFollowing ref) :
    next ∈ forest.walkFollowing tree.id := by
  have rootMet := mem_walkFollowing_root wellFormed registered
  obtain ⟨same, finished⟩ := walkFollowing_eq wellFormed registered
  rw [same] at member finished rootMet ⊢
  rcases (walkWithin_complete wellFormed (pending_root wellFormed registered)
    finished).2 ref member next follows with isMet | ⟨isRoot, visited⟩
  · exact isMet
  have root : forest.isTreeRoot (tree.refTo tree.rootNode) = true := by
    rw [Tree.refTo, isTreeRoot_iff registered, wellFormed.hash_rootNode registered]
  rwa [eq_of_isTreeRoot isRoot root (List.mem_singleton.mp visited)]

theorem transitionTarget_of_child {tree : Tree} {node : Node} {child : NodeHash}
    (located : forest.Located tree node) (member : child ∈ node.children) :
    node.kind.transitionTarget = none := by
  have allowed := (wellFormed.trees located.inForest).fitting located.inTree
  cases kind : node.kind with
  | transition target =>
      have none : node.children.length = 0 := by
        simpa [Node.arity, kind, NodeKind.arity, Arity.allows] using allowed
      rw [List.length_eq_zero_iff.mp none] at member
      cases member
  | _ => rfl

/-- With the root of a tree a walk meets all its nodes. -/
theorem mem_walkFollowing_of_root {start tree : Tree} {node : Node}
    (registered : forest.get? start.id = some start)
    (rootMet : tree.refTo tree.rootNode ∈ forest.walkFollowing start.id)
    (located : forest.Located tree node) :
    tree.refTo node ∈ forest.walkFollowing start.id := by
  have wellFormedTree := wellFormed.trees located.inForest
  have below : ∀ {hash : NodeHash}, tree.Within tree.root hash →
      (⟨tree.id, hash⟩ : NodeRef) ∈ forest.walkFollowing start.id := by
    intro hash within
    induction within with
    | top =>
        rwa [Tree.refTo, wellFormed.hash_rootNode located.inForest] at rootMet
    | @step hash parent above _ induction =>
        obtain ⟨parentNode, isParent, _⟩ := wellFormedTree.listed_of_parentOf above
        have listed := (wellFormedTree.mem_children_iff isParent).mpr above
        have parentLocated :=
          wellFormed.located_of_registered located.inForest isParent
        have sameHash : parentNode.hash = parent := wellFormedTree.keyed isParent
        refine walkFollowing_closed wellFormed registered induction ?_
        rw [← sameHash, ← Tree.refTo]
        exact parentLocated.mem_childrenFollowing_iff.mpr (.inl
          ⟨transitionTarget_of_child wellFormed parentLocated listed, hash, listed,
            rfl⟩)
  exact below (wellFormedTree.rooted located.inTree)

/-- The walk from a tree meets the nodes of all trees to which it leads, and no
others. -/
theorem mem_walkFollowing {tree : Tree}
    (registered : forest.get? tree.id = some tree) {ref : NodeRef} :
    ref ∈ forest.walkFollowing tree.id ↔
      forest.Knows ref ∧ forest.Reaches tree.id ref.tree := by
  constructor
  · intro member
    rw [(walkFollowing_eq wellFormed registered).1] at member
    have pending := pending_root wellFormed registered
    refine ⟨(walkWithin_sound wellFormed pending member).1,
      walkWithin_reaches wellFormed pending ?_ member⟩
    intro root onStack
    rw [List.mem_singleton.mp onStack]
    exact .refl
  · rintro ⟨⟨found, node, located, rfl⟩, reaches⟩
    apply mem_walkFollowing_of_root wellFormed registered _ located
    have rootMet : ∀ {id : TreeId}, forest.Reaches tree.id id →
        ∀ next, forest.get? next.id = some next → next.id = id →
        next.refTo next.rootNode ∈ forest.walkFollowing tree.id := by
      intro id reaches
      induction reaches with
      | refl =>
          intro next isNext same
          rw [same, registered] at isNext
          cases isNext
          exact mem_walkFollowing_root wellFormed registered
      | tail _ links induction =>
          intro next isNext same
          obtain ⟨linked, jump, selector, target, jumpLocated, isLinked, jumps,
            selected, isTarget⟩ := links
          have targetLocated := wellFormed.located_target selected
          have sameTree : target = next := by
            have inForest := targetLocated.inForest
            rw [isTarget, ← same, isNext] at inForest
            exact (Option.some.inj inForest).symm
          have jumpMet := mem_walkFollowing_of_root wellFormed registered
            (induction linked jumpLocated.inForest isLinked) jumpLocated
          rw [← sameTree]
          exact walkFollowing_closed wellFormed registered jumpMet
            (wellFormed.mem_childrenFollowing_target jumpLocated jumps selected)
    exact rootMet reaches found located.inForest rfl

end WalkFollowing

end Forest

end BehaviorTree
