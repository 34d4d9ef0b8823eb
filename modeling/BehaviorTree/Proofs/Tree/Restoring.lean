import BehaviorTree.Proofs.Tree.Interposing
import BehaviorTree.Proofs.Tree.Reordering

/-!
# Undoing a removal

A node that was removed can be put back where it stood.  It and all nodes below it
keep their hashes, no hash is drawn, and the tree is the one before but for one
thing: a parent that designated the node does so no longer.
-/

namespace BehaviorTree

theorem NodeKind.childReplaced_eq_self {kind : NodeKind} {index : Nat}
    (elsewhere : ∀ primary, kind.primaryChild = some primary →
      primary.toNat ≠ index) : kind.childReplaced index = kind := by
  rw [childReplaced, childRemoved, withRoomAt, mapPrimary_mapPrimary]
  refine mapPrimary_eq_self fun primary designated => ?_
  rw [if_neg (elsewhere primary designated)]
  by_cases behind : index < primary.toNat
  · rw [if_pos behind, Option.bind_some,
      if_pos (toNat_sub_one behind ▸ Nat.le_sub_one_of_lt behind),
      UInt64.sub_add_cancel]
  · have before : primary.toNat < index :=
      Nat.lt_of_le_of_ne (Nat.le_of_not_lt behind) (elsewhere primary designated)
    rw [if_neg behind, Option.bind_some, if_neg (Nat.not_le_of_lt before)]

theorem Node.withChild_removeChild {node : Node} {index : Nat} {child : NodeHash}
    (listed : node.children[index]? = some child) :
    (node.removeChild index).withChild index child =
      { node with kind := node.kind.childReplaced index } := by
  obtain ⟨bound, rfl⟩ := List.getElem?_eq_some_iff.mp listed
  have children := List.insertIdx_eraseIdx_getElem bound
  rw [withChild, removeChild, children]
  rfl

namespace Tree

theorem updateNode_eq_self {tree : Tree} {hash : NodeHash} {node : Node}
    {change : Node → Node} (registered : tree.nodes[hash]? = some node)
    (same : change node = node) : tree.updateNode hash change = tree := by
  have nodes : (tree.updateNode hash change).nodes = tree.nodes := by
    refine Std.ExtTreeMap.ext_getElem? fun other => ?_
    rw [nodes_updateNode]
    split
    · next here => rw [here, registered, Option.map_some, same]
    · rfl
  exact congrArg (fun nodes => { tree with nodes }) nodes

namespace Pruned

variable {tree bare : Tree} {hash : NodeHash} {slot : Slot} {parentNode : Node}
  (pruned : tree.Pruned bare hash slot parentNode)
include pruned

theorem contains_iff (other : NodeHash) :
    bare.contains other = true ↔
      tree.contains other = true ∧ ¬ tree.Within hash other := by
  rw [contains_eq_isSome, contains_eq_isSome]
  by_cases within : tree.Within hash other
  · rw [pruned.cleared.gone_single within]
    exact iff_of_false Bool.false_ne_true (·.2 within)
  · rw [pruned.cleared.kept_single within, nodes_updateNode, and_iff_left within]
    split
    · rw [Option.isSome_map]
    · rfl

/-- The parent has room for a child again. -/
theorem hosts_parent (wellFormed : tree.WellFormed) :
    bare.Hosts slot.parent none := by
  have parentNow := pruned.kept (wellFormed.not_within_child pruned.above)
  rw [if_pos rfl] at parentNow
  obtain ⟨bound, _⟩ := List.getElem?_eq_some_iff.mp pruned.listed
  have fits := wellFormed.fitting pruned.parentRegistered
  have sameArity := (Node.Stays.removeChild parentNode slot.index).arity
  rw [hosts_none_iff parentNow, sameArity]
  constructor
  · intro leaf
    rw [leaf] at fits
    have childless : parentNode.children.length = 0 := eq_of_beq fits
    exact Nat.not_lt_zero _ (childless ▸ bound)
  · intro single
    rw [single] at fits
    have alone : parentNode.children.length ≤ 1 := of_decide_eq_true fits
    refine List.length_eq_zero_iff.mp ?_
    change (parentNode.children.eraseIdx slot.index).length = 0
    rw [List.length_eraseIdx_of_lt bound, Nat.sub_eq_zero_of_le alone]

end Pruned

/-- Removing a node gives its clone and unregisters just the nodes of that.  Adding
the clone where it was then succeeds and leads back to the same tree, but for a
parent that designated the node. -/
theorem removal_undone (tree : Tree) (id : TreeId) (wellFormed : tree.WellFormed)
    (scopedTo : tree.ScopedTo id) {hash : NodeHash} (movable : tree.Movable hash) :
    ∃ slot node subtree bare restored, tree.slotOf hash = .ok slot ∧
      tree.nodes[slot.parent]? = some node ∧
      node.children[slot.index]? = some hash ∧
      remove hash tree = .ok subtree bare ∧
      tree.cloneSubtree hash = some subtree ∧
      (∀ other, bare.contains other = true ↔
        tree.contains other = true ∧ ¬ tree.Within hash other) ∧
      add (.detached subtree) slot.parent (some slot.index) false bare =
        .ok hash restored ∧
      ((∀ primary, node.kind.primaryChild = some primary →
        primary.toNat ≠ slot.index) → restored = tree) ∧
      ∀ primary, node.kind.primaryChild = some primary →
        primary.toNat = slot.index →
        restored = tree.updateNode slot.parent (fun node =>
          { node with kind := node.kind.undesignated }) ∧
        ∃ now, restored.nodes[slot.parent]? = some now ∧
          now.kind.primaryChild = none := by
  obtain ⟨slot, node, subtree, bare, detached, cloned, proper, bareWellFormed, same,
    pruned⟩ := wellFormed.detach_pruned movable
  have registered := pruned.parentRegistered
  obtain ⟨bound, _⟩ := List.getElem?_eq_some_iff.mp pruned.listed
  have place : clampPosition (some slot.index) (node.children.length - 1) =
      slot.index := Nat.min_eq_left (Nat.le_sub_one_of_lt bound)
  have room : (node.removeChild slot.index).HasRoom (some slot.index) :=
    node.kind.overflowsAt_childRemoved (.inr <| Nat.le_of_eq <| by
      rw [Node.removeChild, List.length_eraseIdx_of_lt bound, place])
  obtain ⟨_, restored, added, rfl, back⟩ : ∃ top restored,
      add (.detached subtree) slot.parent (some slot.index) false bare =
        .ok top restored ∧
      top = hash ∧ restored = tree.updateNode slot.parent fun node =>
        { node with kind := node.kind.childReplaced slot.index } := by
    unfold add
    refine Edit.Delivers.exists_ok (.after_require (Subtree.check_eq_ok_iff.mpr proper)
      (.after_get (.after_require
        (checkTarget_eq_ok_iff.mpr (pruned.hosts_parent wellFormed)) ?_))) trivial
      trivial
    rw [wellFormed.attach_home_eq_ok scopedTo pruned same cloned room]
    refine ⟨rfl, updateNode_congr registered ?_⟩
    rw [place, Node.withChild_removeChild pruned.listed]
  refine ⟨slot, node, subtree, bare, restored, pruned.found, registered,
    pruned.listed, detached, cloned, pruned.contains_iff, added, ?_, ?_⟩
  · intro elsewhere
    rw [back]
    refine updateNode_eq_self registered ?_
    rw [NodeKind.childReplaced_eq_self elsewhere]
  · intro primary designated here
    have ended : node.kind.childReplaced slot.index = node.kind.undesignated :=
      NodeKind.withRoomAt_childRemoved slot.index designated here
    rw [back]
    refine ⟨updateNode_congr registered (by rw [ended]), _, by
      rw [nodes_updateNode, if_pos rfl, registered, Option.map_some], ?_⟩
    change (node.kind.childReplaced slot.index).primaryChild = none
    rw [ended, NodeKind.undesignated, NodeKind.primaryChild_mapPrimary,
      Option.bind_fun_none]

/-- The rear comes back as if nothing had been; the front comes back to a patrol that
no longer ends with it. -/
theorem patrol_restored :
    ∃ tree rear bare, camp.grown patrol = some tree ∧
      remove ⟨"rear-1"⟩ tree = .ok rear bare ∧
      add (.detached rear) ⟨"patrol-1"⟩ (some 2) false bare =
        .ok ⟨"rear-1"⟩ tree ∧
      ∃ front without restored now, remove ⟨"front-1"⟩ tree = .ok front without ∧
        add (.detached front) ⟨"patrol-1"⟩ (some 0) false without =
          .ok ⟨"front-1"⟩ restored ∧
        restored.nodes[(⟨"patrol-1"⟩ : NodeHash)]? = some now ∧
        now.kind.primaryChild = none := by
  have checked : (camp.grown patrol).any (fun tree =>
      (tree.nodes[(⟨"patrol-1"⟩ : NodeHash)]?).any fun node =>
        decide (node.children[2]? = some ⟨"rear-1"⟩ ∧
          node.children[0]? = some ⟨"front-1"⟩ ∧
          node.kind.primaryChild = some 0)) = true := by
    decide +kernel
  obtain ⟨tree, settled, found⟩ := (Option.any_eq_true _ _).mp checked
  obtain ⟨node, registered, holds⟩ := (Option.any_eq_true _ _).mp found
  obtain ⟨rearListed, frontListed, designated⟩ := of_decide_eq_true holds
  obtain ⟨wellFormed, scopedTo⟩ := of_grown settled
  have slotted : ∀ {child : NodeHash} {index : Nat},
      node.children[index]? = some child →
      tree.slotOf child = .ok ⟨⟨"patrol-1"⟩, index⟩ := by
    intro child index listed
    refine wellFormed.slotOf_eq_ok_iff.mpr
      ⟨(wellFormed.mem_children_iff registered).mp (List.mem_of_getElem? listed), ?_⟩
    rw [childrenOf_eq registered, listed]
  have rearFound := slotted rearListed
  have frontFound := slotted frontListed
  obtain ⟨slot, parent, rear, bare, _, found, parentFound, _, removed, _, _, added,
    whole, _⟩ :=
    removal_undone tree ⟨1⟩ wellFormed scopedTo (.of_slotOf wellFormed rearFound)
  obtain rfl := Except.ok.inj (rearFound.symm.trans found)
  obtain rfl := Option.some.inj (registered.symm.trans parentFound)
  obtain rfl := whole fun primary isPrimary => by
    obtain rfl := Option.some.inj (designated.symm.trans isPrimary)
    decide
  obtain ⟨slot, parent, front, without, restored, found, parentFound, _, left, _, _,
    readded, _, ended⟩ :=
    removal_undone _ ⟨1⟩ wellFormed scopedTo (.of_slotOf wellFormed frontFound)
  obtain rfl := Except.ok.inj (frontFound.symm.trans found)
  obtain rfl := Option.some.inj (registered.symm.trans parentFound)
  obtain ⟨_, now, nowFound, undesignated⟩ := ended 0 designated rfl
  exact ⟨_, rear, bare, settled, removed, added, front, without, restored, now, left,
    readded, nowFound, undesignated⟩

end Tree

end BehaviorTree
