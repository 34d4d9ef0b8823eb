import BehaviorTree.Proofs.Tree.Detaching

/-!
# Walks of well-formed trees

The bounded pre-order walk meets every node below its start once.  The check of a
tree from scratch asks whether each node agrees with its neighbours, and whether the
walk is as long as there are nodes, and so it passes on well-formed trees.
-/

namespace BehaviorTree

namespace Tree

/-- Each node agrees with the nodes to which it is linked. -/
structure Agreeing (tree : Tree) : Prop where
  keyed : ∀ {hash : NodeHash} {node : Node},
    tree.nodes[hash]? = some node → node.hash = hash
  topmost : ∀ {hash : NodeHash} {node : Node},
    tree.nodes[hash]? = some node → node.parent = none → hash = tree.root
  listed : ∀ {hash parent : NodeHash} {node : Node},
    tree.nodes[hash]? = some node → node.parent = some parent →
    ∃ parentNode, tree.nodes[parent]? = some parentNode ∧
      parentNode.children.count hash = 1
  linked : ∀ {hash : NodeHash} {node : Node} {child : NodeHash},
    tree.nodes[hash]? = some node → child ∈ node.children →
    ∃ childNode, tree.nodes[child]? = some childNode ∧
      childNode.parent = some hash
  fitting : ∀ {hash : NodeHash} {node : Node},
    tree.nodes[hash]? = some node →
    node.arity.allows node.children.length = true

theorem all_eq_loop (nodes : Registry) (passes : NodeHash → Node → Bool) :
    nodes.all passes = Id.run (do
      for entry in nodes do
        if passes entry.1 entry.2 = false then return false
      return true) := by
  rcases nodes with ⟨⟨inner⟩⟩
  induction inner using Quotient.inductionOn with
  | h inner => rfl

theorem all_eq_true_iff {nodes : Registry} {passes : NodeHash → Node → Bool} :
    nodes.all passes = true ↔ ∀ {hash : NodeHash} {node : Node},
      nodes[hash]? = some node → passes hash node = true := by
  have listed : nodes.all passes =
      nodes.toList.all fun entry => passes entry.1 entry.2 := by
    rw [all_eq_loop, Std.ExtTreeMap.forIn_eq_forIn_toList]
    induction nodes.toList with
    | nil => rfl
    | cons entry rest induction =>
        cases passed : passes entry.1 entry.2 <;> simp [passed, induction]
  rw [listed, List.all_eq_true]
  constructor
  · exact fun each hash node registered =>
      each (hash, node) (Std.ExtTreeMap.mem_toList_iff_getElem?_eq_some.mpr registered)
  · exact fun each _ member =>
      each (Std.ExtTreeMap.mem_toList_iff_getElem?_eq_some.mp member)

section Links

variable {tree : Tree}

theorem parentAgrees_iff {hash : NodeHash} {node : Node} :
    tree.parentAgrees hash node = true ↔
      (node.parent = none → hash = tree.root) ∧
      ∀ {parent : NodeHash}, node.parent = some parent →
        ∃ parentNode, tree.nodes[parent]? = some parentNode ∧
          parentNode.children.count hash = 1 := by
  rw [parentAgrees]
  cases node.parent with
  | none => simp
  | some parent =>
      cases registered : tree.nodes[parent]? with
      | none => simp [registered]
      | some parentNode => simp [registered]

theorem childrenAgree_iff {hash : NodeHash} {node : Node} :
    tree.childrenAgree hash node = true ↔ ∀ {child : NodeHash},
      child ∈ node.children → ∃ childNode, tree.nodes[child]? = some childNode ∧
        childNode.parent = some hash := by
  rw [childrenAgree, List.all_eq_true]
  refine forall₂_congr fun child _ => ?_
  cases tree.nodes[child]? with
  | none => simp
  | some childNode => simp

/-- The check looks at each node, and at the length of a walk. -/
theorem isConsistent_iff :
    tree.isConsistent = true ↔
      (tree.descendants tree.root).length = tree.nodes.size ∧ tree.Agreeing := by
  rw [isConsistent, Bool.and_eq_true_iff, decide_eq_true_iff]
  refine and_congr_right fun _ => all_eq_true_iff.trans ?_
  simp only [Bool.and_eq_true, decide_eq_true_eq, parentAgrees_iff, childrenAgree_iff]
  constructor
  · intro each
    exact {
      keyed := fun registered => (each registered).1.1.1.symm
      topmost := fun registered => (each registered).1.1.2.1
      listed := fun registered => (each registered).1.1.2.2
      linked := fun registered => (each registered).1.2
      fitting := fun registered => (each registered).2 }
  · intro agreeing hash node registered
    exact ⟨⟨⟨(agreeing.keyed registered).symm, agreeing.topmost registered,
      agreeing.listed registered⟩, agreeing.linked registered⟩,
      agreeing.fitting registered⟩

theorem Agreeing.parentOf_of_mem (agreeing : tree.Agreeing) {hash parent : NodeHash}
    (member : hash ∈ tree.childrenOf parent) : tree.parentOf hash = some parent := by
  cases registered : tree.nodes[parent]? with
  | none => simp [childrenOf, registered] at member
  | some node =>
      rw [childrenOf_eq registered] at member
      obtain ⟨childNode, isChild, isParent⟩ := agreeing.linked registered member
      rw [parentOf_eq isChild, isParent]

theorem WellFormed.agreeing (wellFormed : tree.WellFormed) : tree.Agreeing where
  keyed := wellFormed.keyed
  topmost := by
    intro hash node registered isTop
    by_contra notRoot
    obtain ⟨parent, _, isParent, _⟩ := wellFormed.listed registered notRoot
    cases isTop.symm.trans isParent
  listed := by
    intro hash parent node registered isParent
    exact wellFormed.listed_of_parentOf (by rw [parentOf_eq registered, isParent])
  linked := wellFormed.linked
  fitting := wellFormed.fitting

end Links

/-- No node lies below two of the listed ones. -/
def Apart (tree : Tree) (stack : List NodeHash) : Prop :=
  stack.Pairwise fun first second =>
    ∀ hash, tree.Within first hash → ¬ tree.Within second hash

@[simp] theorem walkWithin_nil (tree : Tree) (fuel : Nat) :
    tree.walkWithin fuel [] = [] := by
  cases fuel <;> rfl

theorem walkWithin_stable (tree : Tree) {fuel more : Nat} {stack : List NodeHash}
    (finished : (tree.walkWithin fuel stack).length < fuel) (enough : fuel ≤ more) :
    tree.walkWithin more stack = tree.walkWithin fuel stack := by
  induction fuel generalizing more stack with
  | zero => cases finished
  | succ fuel induction =>
      obtain ⟨more, rfl⟩ := Nat.exists_eq_add_one_of_ne_zero
        (Nat.ne_zero_of_lt enough)
      cases stack with
      | nil => rw [walkWithin_nil, walkWithin_nil]
      | cons head rest =>
          rw [walkWithin, List.length_cons] at finished
          rw [walkWithin, walkWithin, induction (Nat.lt_of_succ_lt_succ finished)
            (Nat.le_of_succ_le_succ enough)]

/-- A walk stays below its stack. -/
theorem Agreeing.walkWithin_sound {tree : Tree} (agreeing : tree.Agreeing)
    {fuel : Nat} {stack : List NodeHash} {hash : NodeHash}
    (member : hash ∈ tree.walkWithin fuel stack) :
    ∃ top ∈ stack, tree.Within top hash := by
  induction fuel generalizing stack with
  | zero => simp [walkWithin] at member
  | succ fuel induction =>
      cases stack with
      | nil => simp at member
      | cons head rest =>
          rw [walkWithin] at member
          rcases List.mem_cons.mp member with rfl | member
          · exact ⟨hash, List.mem_cons_self, .top⟩
          · obtain ⟨top, topMember, within⟩ := induction member
            rcases List.mem_append.mp topMember with isChild | inRest
            · have above := agreeing.parentOf_of_mem isChild
              exact ⟨head, List.mem_cons_self,
                (Within.child above rfl).trans within⟩
            · exact ⟨top, List.mem_cons_of_mem _ inRest, within⟩

namespace WellFormed

variable {tree : Tree} (wellFormed : tree.WellFormed)
include wellFormed

theorem apart_children {hash : NodeHash} {node : Node}
    (registered : tree.nodes[hash]? = some node) :
    tree.Apart node.children := by
  apply (wellFormed.children_nodup registered).imp_of_mem
  intro first second firstMember secondMember different other belowFirst
    belowSecond
  exact different (wellFormed.siblings_apart
    ((wellFormed.mem_children_iff registered).mp firstMember)
    ((wellFormed.mem_children_iff registered).mp secondMember)
    belowFirst belowSecond)

/-- Replacing the top of the stack by its children keeps the stack apart. -/
theorem apart_expand {hash : NodeHash} {rest : List NodeHash}
    (apart : tree.Apart (hash :: rest)) :
    tree.Apart (tree.childrenOf hash ++ rest) := by
  obtain ⟨headApart, restApart⟩ := List.pairwise_cons.mp apart
  cases registered : tree.nodes[hash]? with
  | none =>
      have childless : tree.childrenOf hash = [] := by
        simp [childrenOf, registered]
      rw [childless, List.nil_append]
      exact restApart
  | some node =>
      rw [childrenOf_eq registered]
      refine List.pairwise_append.mpr
        ⟨wellFormed.apart_children registered, restApart, ?_⟩
      intro child childMember other otherMember below belowChild
      have above := (wellFormed.mem_children_iff registered).mp childMember
      exact headApart other otherMember below
        ((Within.child above rfl).trans belowChild)

theorem walkWithin_nodup {fuel : Nat} {stack : List NodeHash}
    (apart : tree.Apart stack) : (tree.walkWithin fuel stack).Nodup := by
  induction fuel generalizing stack with
  | zero => simp [walkWithin]
  | succ fuel induction =>
      cases stack with
      | nil => simp
      | cons head rest =>
          rw [walkWithin]
          refine List.nodup_cons.mpr
            ⟨fun member => ?_, induction (wellFormed.apart_expand apart)⟩
          obtain ⟨top, topMember, within⟩ := wellFormed.agreeing.walkWithin_sound member
          rcases List.mem_append.mp topMember with isChild | inRest
          · exact wellFormed.not_within_child
              (wellFormed.agreeing.parentOf_of_mem isChild) within
          · exact (List.pairwise_cons.mp apart).1 top inRest head .top within

/-- A walk that did not use up its fuel met everything below its stack. -/
theorem walkWithin_complete {fuel : Nat} {stack : List NodeHash}
    (finished : (tree.walkWithin fuel stack).length < fuel)
    {top hash : NodeHash} {node : Node} (topMember : top ∈ stack)
    (registered : tree.nodes[hash]? = some node)
    (within : tree.Within top hash) : hash ∈ tree.walkWithin fuel stack := by
  induction fuel generalizing stack top with
  | zero => simp [walkWithin] at finished
  | succ fuel induction =>
      cases stack with
      | nil => simp at topMember
      | cons head rest =>
          rw [walkWithin, List.length_cons] at finished
          rw [walkWithin]
          have finished := Nat.lt_of_succ_lt_succ finished
          rcases List.mem_cons.mp topMember with rfl | inRest
          · obtain ⟨topNode, topRegistered⟩ :=
              wellFormed.registered_of_within registered within
            rcases wellFormed.within_cases topRegistered within with
              rfl | ⟨child, childMember, below⟩
            · exact List.mem_cons_self
            · refine List.mem_cons_of_mem _ (induction finished ?_ below)
              rw [childrenOf_eq topRegistered]
              exact List.mem_append_left _ childMember
          · exact List.mem_cons_of_mem _ (induction finished
              (List.mem_append_right _ inRest) within)

theorem descendants_root :
    tree.descendants tree.root =
      tree.walkWithin (tree.nodes.size + 1) [tree.root] := by
  obtain ⟨rootNode, rootRegistered, _⟩ := wellFormed.rootRegistered
  have present : tree.contains tree.root = true := by
    rw [contains_eq_isSome, rootRegistered]
    rfl
  rw [descendants, if_pos present]

theorem descendants_nodup : (tree.descendants tree.root).Nodup := by
  rw [wellFormed.descendants_root]
  exact wellFormed.walkWithin_nodup (List.pairwise_singleton _ _)

theorem registered_of_descendant {hash : NodeHash}
    (member : hash ∈ tree.descendants tree.root) :
    (tree.nodes[hash]?).isSome := by
  obtain ⟨rootNode, rootRegistered, _⟩ := wellFormed.rootRegistered
  rw [wellFormed.descendants_root] at member
  obtain ⟨top, topMember, within⟩ := wellFormed.agreeing.walkWithin_sound member
  rw [List.mem_singleton.mp topMember] at within
  cases within with
  | top =>
      rw [rootRegistered]
      rfl
  | step above _ =>
      obtain ⟨node, registered, _⟩ := registered_of_parentOf above
      rw [registered]
      rfl

theorem mem_descendants {hash : NodeHash} {node : Node}
    (registered : tree.nodes[hash]? = some node) :
    hash ∈ tree.descendants tree.root := by
  have bound := tree.length_le_size wellFormed.descendants_nodup
    fun _ => wellFormed.registered_of_descendant
  rw [wellFormed.descendants_root] at bound ⊢
  exact wellFormed.walkWithin_complete (Nat.lt_succ_of_le bound)
    (List.mem_singleton.mpr rfl) registered (wellFormed.rooted registered)

theorem length_descendants :
    (tree.descendants tree.root).length = tree.nodes.size :=
  (tree.length_eq_size_iff wellFormed.descendants_nodup
    fun _ => wellFormed.registered_of_descendant).mpr wellFormed.mem_descendants

theorem walkWithin_root {fuel : Nat} (enough : tree.nodes.size < fuel) :
    tree.walkWithin fuel [tree.root] = tree.descendants tree.root := by
  have finished := Nat.lt_succ_of_le (Nat.le_of_eq wellFormed.length_descendants)
  rw [wellFormed.descendants_root] at finished ⊢
  exact tree.walkWithin_stable finished enough

/-- A tree is valid if every Root and decorator has a child. -/
theorem validate_eq_ok_iff :
    tree.validate = .ok () ↔ ∀ (hash : NodeHash) (node : Node),
      tree.nodes[hash]? = some node → node.arity = .single →
      node.children ≠ [] := by
  unfold Tree.validate
  dsimp only
  split
  · next nothing =>
      refine ⟨fun _ hash node registered single empty => ?_, fun _ => rfl⟩
      have quiet := List.filterMap_eq_nil_iff.mp nothing hash
        (wellFormed.mem_descendants registered)
      simp [registered, single, empty] at quiet
  · next hash node rest isCons =>
      refine ⟨nofun, fun filled => ?_⟩
      obtain ⟨other, _, found⟩ :=
        List.mem_filterMap.mp (isCons ▸ List.mem_cons_self)
      split at found
      · next _ registered =>
          split at found
          · next childless =>
              exact absurd childless.2 (filled _ _ registered childless.1)
          · cases found
      · cases found

theorem isConsistent : tree.isConsistent = true :=
  isConsistent_iff.mpr ⟨wellFormed.length_descendants, wellFormed.agreeing⟩

end WellFormed

end Tree

end BehaviorTree
