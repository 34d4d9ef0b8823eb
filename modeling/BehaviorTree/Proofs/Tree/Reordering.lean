import BehaviorTree.Proofs.Tree.Carrying

/-!
# Two ways to reorder

A node can be shifted among its siblings, or moved below the parent that it has
already.  Both lead to the same tree, minter included, but for one thing: a parent
that designates the node goes on to do so only if the node is shifted.
-/

namespace BehaviorTree

namespace NodeKind

theorem childMoved_eq {kind : NodeKind} {source : Nat} (target : Nat)
    (elsewhere : ∀ primary, kind.primaryChild = some primary →
      primary.toNat ≠ source) :
    kind.childMoved source target =
      (kind.childRemoved source).withRoomAt target := by
  rw [childMoved, childRemoved, withRoomAt, mapPrimary_mapPrimary]
  refine mapPrimary_congr fun primary designated => ?_
  have notHere := elsewhere primary designated
  rw [if_neg notHere, if_neg notHere]
  by_cases below : source < primary.toNat
  · rw [if_pos below, if_pos below, Option.bind_some]
  · rw [if_neg below, if_neg below, Option.bind_some]

theorem withRoomAt_childRemoved {kind : NodeKind} {source : Nat} (target : Nat)
    {primary : UInt64} (designated : kind.primaryChild = some primary)
    (here : primary.toNat = source) :
    (kind.childRemoved source).withRoomAt target = kind.undesignated := by
  rw [childRemoved, withRoomAt, mapPrimary_mapPrimary, undesignated]
  refine mapPrimary_congr fun other isOther => ?_
  rw [designated, Option.some.injEq] at isOther
  rw [← isOther, if_pos here, Option.bind_none]

end NodeKind

namespace Tree

theorem updateNode_updateNode (tree : Tree) (hash : NodeHash)
    (first second : Node → Node) :
    (tree.updateNode hash first).updateNode hash second =
      tree.updateNode hash fun node => second (first node) := by
  have nodes : ((tree.updateNode hash first).updateNode hash second).nodes =
      (tree.updateNode hash fun node => second (first node)).nodes := by
    refine Std.ExtTreeMap.ext_getElem? fun other => ?_
    rw [nodes_updateNode, nodes_updateNode, nodes_updateNode]
    by_cases here : other = hash
    · rw [if_pos here, if_pos here, if_pos here, Option.map_map]
      rfl
    · rw [if_neg here, if_neg here, if_neg here]
  exact congrArg (fun nodes => { tree with nodes }) nodes

/-- A node that was taken out and carried back below its parent left nothing else
changed than the child list of that parent. -/
theorem Carried.home {tree middle after : Tree} (wellFormed : tree.WellFormed)
    {child : NodeHash} {slot : Slot} {parentNode : Node} {change : Node → Node}
    {rename : NodeHash → NodeHash} {id : TreeId}
    (carried : tree.Carried (middle.updateNode slot.parent change) after child
      slot.parent child rename)
    (pruned : tree.Pruned middle child slot parentNode)
    (same : middle = { tree with nodes := middle.nodes })
    (scopedTo : tree.ScopedTo id) :
    after = tree.updateNode slot.parent fun node =>
      change (node.removeChild slot.index) := by
  have parentOutside := wellFormed.not_within_child pruned.above
  obtain ⟨childNode, childRegistered, parentIs⟩ :=
    registered_of_parentOf pruned.above
  have nodes : after.nodes = (tree.updateNode slot.parent fun node =>
      change (node.removeChild slot.index)).nodes := by
    refine Std.ExtTreeMap.ext_getElem? fun other => ?_
    rw [nodes_updateNode]
    by_cases within : tree.Within child other
    · have notParent : other ≠ slot.parent := by
        rintro rfl
        exact parentOutside within
      obtain ⟨old, oldRegistered⟩ := within.registered childRegistered
      rw [carried.nodes_within scopedTo within oldRegistered, if_neg notParent,
        oldRegistered]
      by_cases isChild : other = child
      · subst isChild
        rw [childRegistered, Option.some.injEq] at oldRegistered
        rw [if_pos rfl, ← oldRegistered, ← parentIs]
      · rw [if_neg isChild]
    · rw [carried.nodes_outside scopedTo within, nodes_updateNode]
      by_cases atParent : other = slot.parent
      · rw [if_pos atParent, if_pos atParent, pruned.kept within, if_pos atParent,
          atParent, pruned.parentRegistered]
        rfl
      · rw [if_neg atParent, if_neg atParent, pruned.kept within, if_neg atParent]
  rw [carried.same, nodes, (carried.kept scopedTo).2, same]
  rfl

/-- A node that was taken out goes back below its parent. -/
theorem WellFormed.attach_home_eq_ok {tree middle : Tree}
    (wellFormed : tree.WellFormed) {id : TreeId} (scopedTo : tree.ScopedTo id)
    {child : NodeHash} {slot : Slot} {node : Node} {subtree : Subtree}
    (pruned : tree.Pruned middle child slot node)
    (same : middle = { tree with nodes := middle.nodes })
    (cloned : tree.cloneSubtree child = some subtree) {position : Option Nat}
    (room : (node.removeChild slot.index).HasRoom position) :
    attach subtree slot.parent position middle =
      .ok child (tree.updateNode slot.parent fun node =>
        (node.removeChild slot.index).withChild
          (clampPosition position (node.children.length - 1)) child) := by
  obtain ⟨childNode, childRegistered, _⟩ := registered_of_parentOf pruned.above
  have emptied := pruned.kept (wellFormed.not_within_child pruned.above)
  rw [if_pos rfl] at emptied
  have affords : middle.Affords subtree.hints :=
    (wellFormed.suits_of_clone scopedTo (by rw [same])
      pruned.cleared.gone_single cloned).affords
  obtain ⟨top, after, attached, rename, carried⟩ :=
    (wellFormed.attach_carried pruned same childRegistered cloned emptied
      position).exists_ok affords room
  obtain rfl : child = top :=
    ((carried.kept scopedTo).1 child).symm.trans carried.top
  obtain ⟨bound, _⟩ := List.getElem?_eq_some_iff.mp pruned.listed
  have length : (node.removeChild slot.index).children.length =
      node.children.length - 1 := List.length_eraseIdx_of_lt bound
  rw [attached, carried.home wellFormed pruned same scopedTo,
    updateNode_congr pruned.parentRegistered (by rw [length])]

section Home

variable {tree : Tree} (wellFormed : tree.WellFormed) {parent child : NodeHash}
  {node : Node} {index : Nat} (registered : tree.nodes[parent]? = some node)
  (composite : node.arity = .many) (listed : node.children[index]? = some child)
  (position : Option Nat)
include wellFormed registered composite listed

theorem shift_eq_ok :
    shift child position tree = .ok ⟨⟩ (tree.updateNode parent
      (·.moveChild index (clampPosition position (node.children.length - 1))
        child)) := by
  have above := (wellFormed.mem_children_iff registered).mp
    (List.mem_of_getElem? listed)
  have found : tree.slotOf child = .ok ⟨parent, index⟩ := by
    refine wellFormed.slotOf_eq_ok_iff.mpr ⟨above, ?_⟩
    rw [childrenOf_eq registered, listed]
  have parentFound : tree.find parent = .ok node := by rw [find, registered]
  obtain ⟨_, after, shifted, rfl⟩ : ∃ value after,
      shift child position tree = .ok value after ∧ after = tree.updateNode parent
        (·.moveChild index (clampPosition position (node.children.length - 1))
          child) := by
    unfold shift
    refine Edit.Delivers.exists_ok (.after_get (.after_require found
      (.after_get (.after_require parentFound ?_)))) trivial trivial
    rw [if_neg (not_not_intro composite)]
    exact rfl
  exact shifted

theorem add_home_eq_ok {id : TreeId} (scopedTo : tree.ScopedTo id)
    (inRange : index < UInt64.size) :
    add (.resident child) parent position false tree =
      .ok child (tree.updateNode parent fun node =>
        (node.removeChild index).withChild
          (clampPosition position (node.children.length - 1)) child) := by
  have above := (wellFormed.mem_children_iff registered).mp
    (List.mem_of_getElem? listed)
  have parentOutside := wellFormed.not_within_child above
  obtain ⟨childNode, childRegistered, _⟩ := registered_of_parentOf above
  have movable : tree.Movable child :=
    ⟨⟨childNode, childRegistered⟩, wellFormed.ne_root_of_parentOf above⟩
  have hosts : tree.Hosts parent (some child) := by
    refine ⟨node, registered, ?_, ?_⟩ <;> simp [composite]
  obtain ⟨slot, parentNode, subtree, middle, detached, cloned, _, _, same,
    pruned⟩ := wellFormed.detach_pruned movable
  obtain ⟨rfl, rfl⟩ : parent = slot.parent ∧ node = parentNode := by
    have sameParent := Option.some.inj (above.symm.trans pruned.above)
    refine ⟨sameParent, Option.some.inj ?_⟩
    rw [← registered, ← pruned.parentRegistered, sameParent]
  obtain ⟨bound, _⟩ := List.getElem?_eq_some_iff.mp listed
  obtain rfl : index = slot.index :=
    (List.getElem?_inj bound (wellFormed.children_nodup registered)).mp
      (listed.trans pruned.listed.symm)
  have apart : ¬ (child = slot.parent ∨
      tree.isAncestor child slot.parent = true) := by
    rintro (same | isAncestor)
    · exact parentOutside (same ▸ .top)
    · exact parentOutside ((wellFormed.isAncestor_iff registered).mp isAncestor).1
  obtain ⟨_, after, added, rfl, rfl⟩ : ∃ top after,
      add (.resident child) slot.parent position false tree = .ok top after ∧
      top = child ∧ after = tree.updateNode slot.parent fun node =>
        (node.removeChild slot.index).withChild
          (clampPosition position (node.children.length - 1)) child := by
    unfold add
    refine Edit.Delivers.exists_ok (.after_get (.after_require
      (wellFormed.findMovable_eq_ok movable childRegistered) (.after_get ?_)))
      trivial trivial
    rw [if_neg apart]
    refine .after_get (.after_require (checkTarget_eq_ok_iff.mpr hosts)
      (.after_ok detached ?_))
    rw [wellFormed.attach_home_eq_ok scopedTo pruned same cloned
      (node.kind.overflowsAt_childRemoved (.inl inRange))]
    exact ⟨rfl, rfl⟩
  exact added

end Home

/-- Shifting a node and moving it below its own parent both go through and lead to
the same tree, with the node at its position and its siblings in their order.  If
the parent designates the node, then only the shift has it do so at the new
index, and the move ends the designation. -/
theorem reorderings_agree (tree : Tree) (id : TreeId)
    (wellFormed : tree.WellFormed) (scopedTo : tree.ScopedTo id)
    {parent child : NodeHash} {node : Node} {index : UInt64}
    (registered : tree.nodes[parent]? = some node)
    (composite : node.arity = .many)
    (listed : node.children[index.toNat]? = some child) (position : Option Nat) :
    ∃ shifted added place, shift child position tree = .ok ⟨⟩ shifted ∧
      add (.resident child) parent position false tree = .ok child added ∧
      place = min (position.getD (node.children.length - 1))
        (node.children.length - 1) ∧
      shifted.childrenOf parent =
        (node.children.erase child).insertIdx place child ∧
      (shifted.childrenOf parent)[place]? = some child ∧
      (node.kind.primaryChild ≠ some index → added = shifted) ∧
      (node.kind.primaryChild = some index →
        (∃ now, shifted.nodes[parent]? = some now ∧
          now.kind.primaryChild = some place.toUInt64) ∧
        (∃ now, added.nodes[parent]? = some now ∧
          now.kind.primaryChild = none) ∧
        added = shifted.updateNode parent fun node =>
          { node with kind := node.kind.undesignated }) := by
  let place := clampPosition position (node.children.length - 1)
  have shiftedNow : (tree.updateNode parent
      (·.moveChild index.toNat place child)).nodes[parent]? =
        some (node.moveChild index.toNat place child) := by
    rw [nodes_updateNode, if_pos rfl, registered, Option.map_some]
  obtain ⟨bound, isChild⟩ := List.getElem?_eq_some_iff.mp listed
  have erased : node.children.eraseIdx index.toNat = node.children.erase child := by
    rw [← isChild,
      (wellFormed.children_nodup registered).erase_getElem index.toNat bound]
  have reordered : (tree.updateNode parent
      (·.moveChild index.toNat place child)).childrenOf parent =
        (node.children.erase child).insertIdx place child := by
    rw [childrenOf_eq shiftedNow, Node.moveChild, erased]
  refine ⟨_, _, place,
    shift_eq_ok wellFormed registered composite listed position,
    add_home_eq_ok wellFormed registered composite listed position scopedTo
      index.toNat_lt_size,
    rfl, reordered, ?_, ?_, ?_⟩
  · have fits : place ≤ (node.children.erase child).length := by
      rw [← erased, List.length_eraseIdx_of_lt bound]
      exact clampPosition_le _ _
    rw [reordered, List.getElem?_insertIdx_self, if_pos fits]
  · intro undesignated
    have elsewhere : ∀ primary, node.kind.primaryChild = some primary →
        primary.toNat ≠ index.toNat := by
      intro primary designated here
      exact undesignated (UInt64.toNat_inj.mp here ▸ designated)
    refine updateNode_congr registered ?_
    rw [Node.moveChild, NodeKind.childMoved_eq place elsewhere]
    rfl
  · intro designated
    have ended : (node.kind.childRemoved index.toNat).withRoomAt place =
        node.kind.undesignated :=
      NodeKind.withRoomAt_childRemoved place designated rfl
    refine ⟨⟨_, shiftedNow, ?_⟩, ⟨_, by
      rw [nodes_updateNode, if_pos rfl, registered, Option.map_some], ?_⟩, ?_⟩
    · rw [Node.moveChild, NodeKind.childMoved, NodeKind.primaryChild_mapPrimary,
        designated, Option.bind_some, if_pos rfl]
    · rw [Node.withChild, Node.removeChild, ended, NodeKind.undesignated,
        NodeKind.primaryChild_mapPrimary, Option.bind_fun_none]
    · rw [updateNode_updateNode]
      refine updateNode_congr registered ?_
      rw [Node.withChild, Node.removeChild, ended, Node.moveChild,
        NodeKind.childMoved, NodeKind.undesignated_mapPrimary]

/-- A patrol of three that ends with the one in front. -/
def patrol : Subtree :=
  { name := "patrol", hash := some ⟨"patrol-1"⟩
    kind := .parallel { primaryChild := some 0 }
    children :=
      [{ name := "front", hash := some ⟨"front-1"⟩, kind := .command "mark_a" },
       { name := "middle", hash := some ⟨"middle-1"⟩, kind := .command "mark_b" },
       { name := "rear", hash := some ⟨"rear-1"⟩, kind := .command "mark_c" }] }

/-- The one in front falls back by one. -/
theorem patrol_reordered :
    ∃ tree node shifted added, camp.grown patrol = some tree ∧
      tree.nodes[(⟨"patrol-1"⟩ : NodeHash)]? = some node ∧ node.arity = .many ∧
      node.children[0]? = some ⟨"front-1"⟩ ∧ node.kind.primaryChild = some 0 ∧
      shift ⟨"front-1"⟩ (some 1) tree = .ok ⟨⟩ shifted ∧
      add (.resident ⟨"front-1"⟩) ⟨"patrol-1"⟩ (some 1) false tree =
        .ok ⟨"front-1"⟩ added ∧
      added = shifted.updateNode ⟨"patrol-1"⟩ fun node =>
        { node with kind := node.kind.undesignated } := by
  have checked : (camp.grown patrol).any (fun tree =>
      (tree.nodes[(⟨"patrol-1"⟩ : NodeHash)]?).any fun node =>
        decide (node.arity = .many ∧ node.children[0]? = some ⟨"front-1"⟩ ∧
          node.kind.primaryChild = some 0)) = true := by
    decide +kernel
  obtain ⟨tree, settled, found⟩ := (Option.any_eq_true _ _).mp checked
  obtain ⟨node, registered, holds⟩ := (Option.any_eq_true _ _).mp found
  obtain ⟨composite, listed, designated⟩ := of_decide_eq_true holds
  obtain ⟨wellFormed, scopedTo⟩ := of_grown settled
  have isFirst : node.children[(0 : UInt64).toNat]? = some ⟨"front-1"⟩ := listed
  obtain ⟨shifted, added, _, isShifted, isAdded, _, _, _, _, ended⟩ :=
    reorderings_agree tree ⟨1⟩ wellFormed scopedTo registered composite isFirst
      (some 1)
  obtain ⟨_, _, same⟩ := ended designated
  exact ⟨tree, node, shifted, added, settled, registered, composite, listed,
    designated, isShifted, isAdded, same⟩

end Tree

end BehaviorTree
