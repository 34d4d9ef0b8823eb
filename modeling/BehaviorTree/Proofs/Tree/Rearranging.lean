import BehaviorTree.Proofs.Tree.Planting

/-!
# Rearranging a registry

What the edits do to a registry, node by node, and that it stays well-formed.
A child list only matters up to the order of its members here; where a
Parallel's designation goes does not matter at all.
-/

namespace BehaviorTree

namespace Tree

section ChildLists

variable {children : List NodeHash} {index : Nat} {hash fresh : NodeHash}

theorem eraseIdx_links (distinct : children.Nodup)
    (listed : children[index]? = some hash) :
    (children.eraseIdx index).Nodup ∧
      ∀ child, child ∈ children.eraseIdx index ↔
        child ∈ children ∧ child ≠ hash := by
  obtain ⟨bound, rfl⟩ := List.getElem?_eq_some_iff.mp listed
  rw [← distinct.erase_getElem index bound]
  refine ⟨distinct.erase _, fun child => ?_⟩
  rw [distinct.mem_erase_iff, and_comm]

theorem insertIdx_links (distinct : children.Nodup)
    (bound : index ≤ children.length) (notListed : fresh ∉ children) :
    (children.insertIdx index fresh).Nodup ∧
      ∀ child, child ∈ children.insertIdx index fresh ↔
        child = fresh ∨ child ∈ children := by
  have order := List.perm_insertIdx fresh children bound
  refine ⟨order.nodup_iff.mpr (List.nodup_cons.mpr ⟨notListed, distinct⟩), ?_⟩
  intro child
  rw [order.mem_iff, List.mem_cons]

theorem set_links (distinct : children.Nodup)
    (listed : children[index]? = some hash) (notListed : fresh ∉ children) :
    (children.set index fresh).Nodup ∧
      ∀ child, child ∈ children.set index fresh ↔
        child = fresh ∨ child ∈ children ∧ child ≠ hash := by
  obtain ⟨bound, _⟩ := List.getElem?_eq_some_iff.mp listed
  obtain ⟨erasedDistinct, members⟩ := eraseIdx_links distinct listed
  have order := List.set_perm_cons_eraseIdx bound fresh
  constructor
  · refine order.nodup_iff.mpr (List.nodup_cons.mpr ⟨?_, erasedDistinct⟩)
    exact fun member => notListed ((members fresh).mp member).1
  · intro child
    rw [order.mem_iff, List.mem_cons, members]

end ChildLists

namespace WellFormed

variable {tree : Tree} (wellFormed : tree.WellFormed)
include wellFormed

theorem links {hash : NodeHash} {node : Node}
    (registered : tree.nodes[hash]? = some node) :
    node.children.Nodup ∧
      ∀ child, child ∈ node.children ↔ tree.parentOf child = some hash :=
  ⟨wellFormed.children_nodup registered,
    fun _ => wellFormed.mem_children_iff registered⟩

/-- A tree whose nodes are versions of the nodes of a well-formed tree, or new
nodes other than roots. -/
theorem rewired {after : Tree} (sameRoot : after.root = tree.root)
    (origin : ∀ {hash : NodeHash} {node : Node},
      after.nodes[hash]? = some node →
      (∃ old, tree.nodes[hash]? = some old ∧ node.hash = old.hash ∧
        node.kind.isRoot = old.kind.isRoot) ∨
      (tree.nodes[hash]? = none ∧ node.hash = hash ∧
        node.kind.isRoot = false))
    (rootKept : ∃ node, after.nodes[tree.root]? = some node ∧
      node.parent = none)
    (linked : ∀ {hash : NodeHash} {node : Node},
      after.nodes[hash]? = some node → node.children.Nodup ∧
      ∀ child, child ∈ node.children ↔ after.parentOf child = some hash)
    (rooted : ∀ {hash : NodeHash} {node : Node},
      after.nodes[hash]? = some node → after.Within tree.root hash)
    (fitting : ∀ {hash : NodeHash} {node : Node},
      after.nodes[hash]? = some node →
      node.arity.allows node.children.length = true) : after.WellFormed := by
  refine .of_links ?_ ?_ ?_ linked (by rwa [sameRoot]) fitting
  · intro hash node registered
    rcases origin registered with ⟨old, oldRegistered, same, _⟩ | ⟨_, same, _⟩
    · rw [same, wellFormed.keyed oldRegistered]
    · exact same
  · obtain ⟨node, registered, parentless⟩ := rootKept
    obtain ⟨rootNode, rootRegistered, _, isRoot⟩ := wellFormed.rootRegistered
    refine ⟨node, by rw [sameRoot, registered], parentless, ?_⟩
    rcases origin registered with ⟨old, oldRegistered, _, same⟩ | ⟨absent, _⟩
    · rw [rootRegistered] at oldRegistered
      cases oldRegistered
      rw [same, isRoot]
      rfl
    · simp [rootRegistered] at absent
  · intro hash node registered isRoot
    rw [sameRoot]
    rcases origin registered with ⟨old, oldRegistered, _, same⟩ | ⟨_, _, same⟩
    · exact (wellFormed.isRoot_iff oldRegistered).mp (same ▸ isRoot)
    · simp [same] at isRoot

omit wellFormed in
theorem within_root_of_moved {after : Tree} {root hash : NodeHash}
    (moved : NodeHash → Prop)
    (atMoved : ∀ other, moved other → after.Within root other)
    (same : ∀ {other parent : NodeHash}, ¬ moved other →
      tree.parentOf other = some parent → after.parentOf other = some parent)
    (within : tree.Within root hash) : after.Within root hash := by
  induction within with
  | top => exact .top
  | @step hash parent above _ induction =>
      by_cases isMoved : moved hash
      · exact atMoved hash isMoved
      · exact .step (same isMoved above) induction

/-- A tree with one node changed in place; its children may be put in another
order. -/
theorem changed {hash : NodeHash} {change : Node → Node}
    (keeps : ∀ {node : Node}, tree.nodes[hash]? = some node →
      (change node).hash = node.hash ∧
      (change node).parent = node.parent ∧
      (change node).kind.isRoot = node.kind.isRoot ∧
      (change node).children.Perm node.children ∧
      (change node).arity.allows node.children.length = true) :
    (tree.updateNode hash change).WellFormed := by
  have origin : ∀ {other : NodeHash} {node : Node},
      (tree.updateNode hash change).nodes[other]? = some node →
      ∃ old, tree.nodes[other]? = some old ∧ node.hash = old.hash ∧
        node.parent = old.parent ∧ node.kind.isRoot = old.kind.isRoot ∧
        node.children.Perm old.children ∧
        node.arity.allows old.children.length = true := by
    intro other node registered
    rw [nodes_updateNode] at registered
    by_cases here : other = hash
    · rw [if_pos here, Option.map_eq_some_iff] at registered
      obtain ⟨old, oldRegistered, rfl⟩ := registered
      exact ⟨old, oldRegistered, keeps (here ▸ oldRegistered)⟩
    · rw [if_neg here] at registered
      exact ⟨node, registered, rfl, rfl, rfl, .refl _,
        wellFormed.fitting registered⟩
  have parents := parentOf_updateNode fun registered =>
    (keeps registered).2.1
  refine wellFormed.rewired rfl ?_ ?_ ?_ ?_ ?_
  · intro other node registered
    obtain ⟨old, oldRegistered, sameHash, _, sameRootness, _⟩ :=
      origin registered
    exact .inl ⟨old, oldRegistered, sameHash, sameRootness⟩
  · obtain ⟨rootNode, rootRegistered, parentless, _⟩ :=
      wellFormed.rootRegistered
    by_cases here : tree.root = hash
    · refine ⟨change rootNode, by rw [nodes_updateNode, if_pos here,
        rootRegistered, Option.map_some], ?_⟩
      rw [(keeps (here ▸ rootRegistered)).2.1, parentless]
    · exact ⟨rootNode, by rw [nodes_updateNode, if_neg here, rootRegistered],
        parentless⟩
  · intro other node registered
    obtain ⟨old, oldRegistered, _, _, _, order, _⟩ := origin registered
    obtain ⟨distinct, members⟩ := wellFormed.links oldRegistered
    refine ⟨order.nodup_iff.mpr distinct, fun child => ?_⟩
    rw [order.mem_iff, members, parents]
  · intro other node registered
    obtain ⟨old, oldRegistered, _⟩ := origin registered
    exact (wellFormed.rooted oldRegistered).transport fun other _ _ _ =>
      parents other
  · intro other node registered
    obtain ⟨old, _, _, _, _, order, allowed⟩ := origin registered
    rw [order.length_eq]
    exact allowed

end WellFormed

/-- A tree without a node and everything below it; the parent of the node lists
the rest of its children. -/
structure Pruned (tree after : Tree) (hash : NodeHash) (slot : Slot)
    (parentNode : Node) : Prop where
  found : tree.slotOf hash = .ok slot
  parentRegistered : tree.nodes[slot.parent]? = some parentNode
  sameRoot : after.root = tree.root
  cleared : tree.Cleared [hash]
    (tree.updateNode slot.parent (·.removeChild slot.index)).nodes after.nodes

theorem not_within_of_parentOf {tree : Tree} {top hash parent : NodeHash}
    (above : tree.parentOf hash = some parent)
    (parentOutside : ¬ tree.Within top parent) (different : hash ≠ top) :
    ¬ tree.Within top hash := by
  intro within
  cases within with
  | top => exact different rfl
  | step stepAbove within =>
      rw [above] at stepAbove
      cases stepAbove
      exact parentOutside within

namespace Pruned

variable {tree after : Tree} {hash : NodeHash} {slot : Slot} {parentNode : Node}
  (pruned : tree.Pruned after hash slot parentNode)
include pruned

theorem above : tree.parentOf hash = some slot.parent :=
  (of_slotOf pruned.found).1

theorem listed : parentNode.children[slot.index]? = some hash := by
  obtain ⟨_, listing, registered, listed⟩ := of_slotOf pruned.found
  rw [pruned.parentRegistered] at registered
  cases registered
  exact listed

theorem kept {other : NodeHash} (outside : ¬ tree.Within hash other) :
    after.nodes[other]? =
      if other = slot.parent then some (parentNode.removeChild slot.index)
      else tree.nodes[other]? := by
  rw [pruned.cleared.kept_single outside, nodes_updateNode]
  by_cases atParent : other = slot.parent
  · simp [atParent, pruned.parentRegistered]
  · simp [atParent]

theorem outside {other : NodeHash} {node : Node}
    (registered : after.nodes[other]? = some node) :
    ¬ tree.Within hash other := by
  intro within
  simp [pruned.cleared.gone_single within] at registered

theorem origin {other : NodeHash} {node : Node}
    (registered : after.nodes[other]? = some node) :
    ∃ old, tree.nodes[other]? = some old ∧ old.Alike node ∧
      node.parent = old.parent ∧
      node.children.length ≤ old.children.length := by
  rw [pruned.kept (pruned.outside registered)] at registered
  by_cases atParent : other = slot.parent
  · rw [if_pos atParent, Option.some.injEq] at registered
    subst registered atParent
    exact ⟨parentNode, pruned.parentRegistered, parentNode.alike_removeChild _,
      rfl, List.length_eraseIdx_le _ _⟩
  · rw [if_neg atParent] at registered
    exact ⟨node, registered, .refl node, rfl, Nat.le_refl _⟩

theorem parentOf_iff {child parent : NodeHash} :
    after.parentOf child = some parent ↔
      tree.parentOf child = some parent ∧ ¬ tree.Within hash child := by
  constructor
  · intro childAbove
    obtain ⟨node, registered, parentIs⟩ := registered_of_parentOf childAbove
    obtain ⟨old, oldRegistered, _, sameParent, _⟩ := pruned.origin registered
    exact ⟨by rw [parentOf_eq oldRegistered, ← sameParent, parentIs],
      pruned.outside registered⟩
  · intro ⟨childAbove, childOutside⟩
    obtain ⟨old, oldRegistered, parentIs⟩ := registered_of_parentOf childAbove
    by_cases atParent : child = slot.parent
    · subst atParent
      rw [pruned.parentRegistered] at oldRegistered
      cases oldRegistered
      rw [parentOf_eq (by rw [pruned.kept childOutside, if_pos rfl])]
      exact parentIs
    · rw [parentOf_eq (by rw [pruned.kept childOutside, if_neg atParent,
        oldRegistered]), parentIs]

variable (wellFormed : tree.WellFormed)
include wellFormed

theorem root : ∃ node, after.nodes[tree.root]? = some node ∧
    node.parent = none := by
  obtain ⟨rootNode, rootRegistered, parentless, _⟩ := wellFormed.rootRegistered
  have rootOutside : ¬ tree.Within hash tree.root := by
    intro within
    obtain ⟨node, registered, _⟩ := registered_of_parentOf pruned.above
    exact wellFormed.ne_root_of_slotOf pruned.found
      (wellFormed.within_antisymm registered within
        (wellFormed.rooted registered))
  rw [pruned.kept rootOutside]
  by_cases atParent : tree.root = slot.parent
  · rw [atParent, pruned.parentRegistered] at rootRegistered
    cases rootRegistered
    exact ⟨parentNode.removeChild slot.index, if_pos atParent, parentless⟩
  · exact ⟨rootNode, by rw [if_neg atParent, rootRegistered], parentless⟩

theorem links_parent (parentOutside : ¬ tree.Within hash slot.parent) :
    (parentNode.removeChild slot.index).children.Nodup ∧
    ∀ child, child ∈ (parentNode.removeChild slot.index).children ↔
      after.parentOf child = some slot.parent := by
  obtain ⟨distinct, members⟩ := wellFormed.links pruned.parentRegistered
  obtain ⟨distinct, others⟩ := eraseIdx_links distinct pruned.listed
  refine ⟨distinct, fun child => (others child).trans ?_⟩
  rw [pruned.parentOf_iff, members]
  apply and_congr_right
  intro childAbove
  constructor
  · exact not_within_of_parentOf childAbove parentOutside
  · intro childOutside same
    subst same
    exact childOutside .top

theorem links {other : NodeHash} {node : Node}
    (registered : after.nodes[other]? = some node) :
    node.children.Nodup ∧
      ∀ child, child ∈ node.children ↔ after.parentOf child = some other := by
  have otherOutside := pruned.outside registered
  rw [pruned.kept otherOutside] at registered
  by_cases atParent : other = slot.parent
  · rw [if_pos atParent, Option.some.injEq] at registered
    subst registered atParent
    exact pruned.links_parent wellFormed otherOutside
  · rw [if_neg atParent] at registered
    obtain ⟨distinct, members⟩ := wellFormed.links registered
    refine ⟨distinct, fun child => ?_⟩
    rw [pruned.parentOf_iff, members]
    refine ⟨fun childAbove => ⟨childAbove, ?_⟩, And.left⟩
    apply not_within_of_parentOf childAbove otherOutside
    intro same
    subst same
    rw [pruned.above] at childAbove
    exact atParent (Option.some.inj childAbove).symm

theorem rooted {other : NodeHash} {node : Node}
    (registered : after.nodes[other]? = some node) :
    after.Within tree.root other := by
  obtain ⟨old, oldRegistered, _⟩ := pruned.origin registered
  apply (wellFormed.rooted oldRegistered).transport
  intro passed _ belowPassed notRoot
  have passedOutside : ¬ tree.Within hash passed :=
    fun within => pruned.outside registered (within.trans belowPassed)
  obtain ⟨passedNode, passedRegistered⟩ :=
    wellFormed.registered_of_within oldRegistered belowPassed
  obtain ⟨parent, _, parentIs, _⟩ := wellFormed.listed passedRegistered notRoot
  have passedAbove : tree.parentOf passed = some parent := by
    rw [parentOf_eq passedRegistered, parentIs]
  rw [passedAbove]
  exact pruned.parentOf_iff.mpr ⟨passedAbove, passedOutside⟩

theorem wellFormed_after : after.WellFormed := by
  refine wellFormed.rewired pruned.sameRoot ?_ (pruned.root wellFormed)
    (pruned.links wellFormed) (pruned.rooted wellFormed) ?_
  · intro other node registered
    obtain ⟨old, oldRegistered, alike, _⟩ := pruned.origin registered
    exact .inl ⟨old, oldRegistered, alike.hash, alike.isRoot⟩
  · intro other node registered
    obtain ⟨old, oldRegistered, alike, _, fewer⟩ := pruned.origin registered
    rw [alike.arity]
    exact Arity.allows_of_le fewer (wellFormed.fitting oldRegistered)

end Pruned

namespace WellFormed

section Planted

variable {tree : Tree} (wellFormed : tree.WellFormed) {middle : Tree}
  {parent : NodeHash} {tops : List NodeHash}
  {parentNode : Node} (planted : tree.Planted middle parent tops)
  (parentRegistered : tree.nodes[parent]? = some parentNode)
include wellFormed planted parentRegistered

/-- After a registration all links agree but those of the parent, which does
not list the new nodes yet. -/
theorem planted_links {other : NodeHash} {node : Node}
    (registered : middle.nodes[other]? = some node) :
    node.children.Nodup ∧ ∀ child, child ∈ node.children ↔
      middle.parentOf child = some other ∧ (other = parent → child ∉ tops) := by
  cases oldRegistered : tree.nodes[other]? with
  | some old =>
      obtain rfl : old = node := by
        simpa [planted.kept oldRegistered] using registered
      obtain ⟨distinct, members⟩ := wellFormed.links oldRegistered
      refine ⟨distinct, fun child => (members child).trans ?_⟩
      cases childRegistered : tree.nodes[child]? with
      | some childNode =>
          rw [planted.parentOf_kept childRegistered]
          refine (and_iff_left ?_).symm
          intro _ member
          simp [(planted.top child member).1] at childRegistered
      | none =>
          constructor
          · intro above
            simp [parentOf, childRegistered] at above
          · rintro ⟨above, notTop⟩
            rcases planted.outward childRegistered above with
              ⟨absent, _⟩ | ⟨same, member⟩
            · simp [oldRegistered] at absent
            · exact (notTop same member).elim
  | none =>
      have fresh := planted.fresh oldRegistered registered
      refine ⟨fresh.distinct, fun child => (fresh.members child).trans ?_⟩
      constructor
      · rintro ⟨_, above⟩
        refine ⟨above, ?_⟩
        intro same
        subst same
        simp [parentRegistered] at oldRegistered
      · rintro ⟨above, _⟩
        refine ⟨?_, above⟩
        cases childRegistered : tree.nodes[child]? with
        | none => rfl
        | some childNode =>
            rw [planted.parentOf_kept childRegistered] at above
            obtain ⟨otherNode, otherRegistered, _⟩ :=
              wellFormed.listed_of_parentOf above
            simp [otherRegistered] at oldRegistered

theorem planted_rooted {other : NodeHash} {node : Node}
    (registered : middle.nodes[other]? = some node) :
    middle.Within tree.root other := by
  cases oldRegistered : tree.nodes[other]? with
  | some old => exact planted.within_kept (wellFormed.rooted oldRegistered)
  | none =>
      obtain ⟨top, member, within⟩ := planted.rooted oldRegistered registered
      refine Within.trans (.step (planted.top top member).2 ?_) within
      exact planted.within_kept (wellFormed.rooted parentRegistered)

omit parentRegistered in
theorem planted_fitting {other : NodeHash} {node : Node}
    (registered : middle.nodes[other]? = some node) :
    node.arity.allows node.children.length = true := by
  cases oldRegistered : tree.nodes[other]? with
  | some old =>
      obtain rfl : old = node := by
        simpa [planted.kept oldRegistered] using registered
      exact wellFormed.fitting oldRegistered
  | none => exact (planted.fresh oldRegistered registered).fitting

omit wellFormed parentRegistered in
/-- A node of a tree in which something was registered is old or new. -/
theorem planted_origin {other : NodeHash} {node current : Node}
    (registered : middle.nodes[other]? = some node)
    (alike : node.Alike current) :
    (∃ old, tree.nodes[other]? = some old ∧ current.hash = old.hash ∧
      current.kind.isRoot = old.kind.isRoot) ∨
    (tree.nodes[other]? = none ∧ current.hash = other ∧
      current.kind.isRoot = false) := by
  cases oldRegistered : tree.nodes[other]? with
  | some old =>
      obtain rfl : old = node := by
        simpa [planted.kept oldRegistered] using registered
      exact .inl ⟨old, rfl, alike.hash, alike.isRoot⟩
  | none =>
      have fresh := planted.fresh oldRegistered registered
      exact .inr ⟨rfl, by rw [alike.hash, fresh.keyed],
        by rw [alike.isRoot, fresh.notRoot]⟩

end Planted

end WellFormed

/-- A tree with a registered subtree in the child list of its parent. -/
structure Grafted (tree middle after : Tree) (parent hash : NodeHash)
    (parentNode : Node) (position : Nat) : Prop where
  planted : tree.Planted middle parent [hash]
  parentRegistered : tree.nodes[parent]? = some parentNode
  sameRoot : after.root = middle.root
  parentNow : after.nodes[parent]? = some (parentNode.withChild position hash)
  elsewhere : ∀ {other : NodeHash}, other ≠ parent →
    after.nodes[other]? = middle.nodes[other]?

namespace Grafted

variable {tree middle after : Tree} {parent hash : NodeHash} {parentNode : Node}
  {position : Nat}
  (grafted : tree.Grafted middle after parent hash parentNode position)
include grafted

theorem parentMiddle : middle.nodes[parent]? = some parentNode :=
  grafted.planted.kept grafted.parentRegistered

theorem parentOf_eq (other : NodeHash) :
    after.parentOf other = middle.parentOf other := by
  by_cases here : other = parent
  · subst here
    rw [Tree.parentOf_eq grafted.parentMiddle, Tree.parentOf_eq grafted.parentNow]
    rfl
  · rw [parentOf, parentOf, grafted.elsewhere here]

theorem origin {other : NodeHash} {node : Node}
    (registered : after.nodes[other]? = some node) :
    ∃ old, middle.nodes[other]? = some old ∧ old.Alike node := by
  by_cases here : other = parent
  · rw [here, grafted.parentNow, Option.some.injEq] at registered
    subst registered here
    exact ⟨parentNode, grafted.parentMiddle, parentNode.alike_withChild _ _⟩
  · rw [grafted.elsewhere here] at registered
    exact ⟨node, registered, .refl node⟩

variable (wellFormed : tree.WellFormed)
include wellFormed

theorem root : ∃ node, after.nodes[tree.root]? = some node ∧
    node.parent = none := by
  obtain ⟨rootNode, rootRegistered, parentless, _⟩ := wellFormed.rootRegistered
  by_cases here : tree.root = parent
  · rw [here, grafted.parentRegistered] at rootRegistered
    cases rootRegistered
    exact ⟨parentNode.withChild position hash, here ▸ grafted.parentNow,
      parentless⟩
  · rw [grafted.elsewhere here]
    exact ⟨rootNode, grafted.planted.kept rootRegistered, parentless⟩

theorem fitting (bound : position ≤ parentNode.children.length)
    (fits : parentNode.arity.allows (parentNode.children.length + 1) = true)
    {other : NodeHash} {node : Node}
    (registered : after.nodes[other]? = some node) :
    node.arity.allows node.children.length = true := by
  by_cases here : other = parent
  · rw [here, grafted.parentNow, Option.some.injEq] at registered
    subst registered
    rw [(parentNode.alike_withChild _ _).arity]
    simpa [Node.withChild, List.length_insertIdx_of_le_length bound] using fits
  · rw [grafted.elsewhere here] at registered
    exact wellFormed.planted_fitting grafted.planted registered

theorem links_parent (bound : position ≤ parentNode.children.length) :
    (parentNode.withChild position hash).children.Nodup ∧
    ∀ child, child ∈ (parentNode.withChild position hash).children ↔
      after.parentOf child = some parent := by
  obtain ⟨distinct, members⟩ := wellFormed.planted_links grafted.planted
    grafted.parentRegistered grafted.parentMiddle
  have notListed : hash ∉ parentNode.children :=
    fun member => ((members hash).mp member).2 rfl (by simp)
  obtain ⟨inserted, others⟩ := insertIdx_links distinct bound notListed
  refine ⟨inserted, fun child => (others child).trans ?_⟩
  rw [members, grafted.parentOf_eq]
  by_cases isTop : child = hash
  · simp [isTop, (grafted.planted.top hash (by simp)).2]
  · simp [isTop]

theorem links (bound : position ≤ parentNode.children.length)
    {other : NodeHash} {node : Node}
    (registered : after.nodes[other]? = some node) :
    node.children.Nodup ∧
      ∀ child, child ∈ node.children ↔ after.parentOf child = some other := by
  by_cases here : other = parent
  · rw [here, grafted.parentNow, Option.some.injEq] at registered
    subst registered here
    exact grafted.links_parent wellFormed bound
  · rw [grafted.elsewhere here] at registered
    obtain ⟨distinct, members⟩ := wellFormed.planted_links grafted.planted
      grafted.parentRegistered registered
    refine ⟨distinct, fun child => (members child).trans ?_⟩
    rw [grafted.parentOf_eq]
    exact and_iff_left fun same => (here same).elim

theorem wellFormed_after (bound : position ≤ parentNode.children.length)
    (fits : parentNode.arity.allows (parentNode.children.length + 1) = true) :
    after.WellFormed := by
  have planted := grafted.planted
  refine wellFormed.rewired (grafted.sameRoot.trans planted.sameRoot) ?_
    (grafted.root wellFormed) (grafted.links wellFormed bound) ?_
    (grafted.fitting wellFormed bound fits)
  · intro other node registered
    obtain ⟨old, oldRegistered, alike⟩ := grafted.origin registered
    exact WellFormed.planted_origin planted oldRegistered alike
  · intro other node registered
    obtain ⟨old, oldRegistered, _⟩ := grafted.origin registered
    apply (wellFormed.planted_rooted planted grafted.parentRegistered
      oldRegistered).transport
    exact fun child _ _ _ => grafted.parentOf_eq child

end Grafted

/-- A host that is registered below the parent of a node, but not listed. -/
structure Hosting (tree middle : Tree) (target host : NodeHash) (slot : Slot)
    (targetNode parentNode hostNode : Node) : Prop where
  found : tree.slotOf target = .ok slot
  targetRegistered : tree.nodes[target]? = some targetNode
  parentRegistered : tree.nodes[slot.parent]? = some parentNode
  planted : tree.Planted middle slot.parent [host]
  hostRegistered : middle.nodes[host]? = some hostNode

/-- A host that was put between a node and its parent: it has the slot of the
node, and lists it. -/
structure Spliced (tree middle after : Tree) (target host : NodeHash)
    (slot : Slot) (targetNode parentNode hostNode : Node) (position : Nat) :
    Prop where
  hosting : tree.Hosting middle target host slot targetNode parentNode hostNode
  sameRoot : after.root = middle.root
  hostNow : after.nodes[host]? = some (hostNode.withChild position target)
  targetNow : after.nodes[target]? =
    some { targetNode with parent := some host }
  parentNow : after.nodes[slot.parent]? =
    some (parentNode.hostChild slot.index host)
  elsewhere : ∀ {other : NodeHash}, other ≠ host → other ≠ target →
    other ≠ slot.parent → after.nodes[other]? = middle.nodes[other]?

section Splicing

variable {tree middle after : Tree} {target host : NodeHash} {slot : Slot}
  {targetNode parentNode hostNode : Node} {position : Nat}

namespace Hosting

variable (hosting : tree.Hosting middle target host slot targetNode parentNode
  hostNode)
include hosting

theorem above : tree.parentOf target = some slot.parent :=
  (of_slotOf hosting.found).1

theorem listed : parentNode.children[slot.index]? = some target := by
  obtain ⟨_, listing, registered, listed⟩ := of_slotOf hosting.found
  rw [hosting.parentRegistered] at registered
  cases registered
  exact listed

theorem absent : tree.nodes[host]? = none :=
  (hosting.planted.top host (by simp)).1

theorem host_ne_target : host ≠ target := by
  intro same
  have absent := hosting.absent
  rw [same, hosting.targetRegistered] at absent
  cases absent

theorem host_ne_parent : host ≠ slot.parent := by
  intro same
  have absent := hosting.absent
  rw [same, hosting.parentRegistered] at absent
  cases absent

theorem target_ne_parent (wellFormed : tree.WellFormed) :
    target ≠ slot.parent := by
  intro same
  exact wellFormed.not_within_child hosting.above (same ▸ .top)

theorem parentOf_target : middle.parentOf target = some slot.parent := by
  rw [hosting.planted.parentOf_kept hosting.targetRegistered, hosting.above]

theorem parentOf_host : middle.parentOf host = some slot.parent :=
  (hosting.planted.top host (by simp)).2

end Hosting

namespace Spliced

variable (spliced : tree.Spliced middle after target host slot targetNode
  parentNode hostNode position)
include spliced

theorem parentOf_target : after.parentOf target = some host := by
  rw [parentOf_eq spliced.targetNow]

theorem parentOf_other {other : NodeHash} (notTarget : other ≠ target) :
    after.parentOf other = middle.parentOf other := by
  have hosting := spliced.hosting
  by_cases isHost : other = host
  · subst isHost
    rw [parentOf_eq hosting.hostRegistered, parentOf_eq spliced.hostNow]
    rfl
  by_cases isParent : other = slot.parent
  · subst isParent
    rw [parentOf_eq (hosting.planted.kept hosting.parentRegistered),
      parentOf_eq spliced.parentNow]
    rfl
  · rw [parentOf, parentOf, spliced.elsewhere isHost notTarget isParent]

theorem parentOf_iff {other child : NodeHash} (notHost : other ≠ host)
    (notParent : other ≠ slot.parent) :
    after.parentOf child = some other ↔ middle.parentOf child = some other := by
  by_cases isTarget : child = target
  · subst isTarget
    rw [spliced.parentOf_target, spliced.hosting.parentOf_target]
    simp [Ne.symm notHost, Ne.symm notParent]
  · rw [spliced.parentOf_other isTarget]

theorem origin {other : NodeHash} {node : Node}
    (registered : after.nodes[other]? = some node) :
    ∃ old, middle.nodes[other]? = some old ∧ old.Alike node := by
  have hosting := spliced.hosting
  by_cases isHost : other = host
  · rw [isHost, spliced.hostNow, Option.some.injEq] at registered
    subst registered
    exact ⟨hostNode, isHost ▸ hosting.hostRegistered,
      hostNode.alike_withChild _ _⟩
  by_cases isTarget : other = target
  · rw [isTarget, spliced.targetNow, Option.some.injEq] at registered
    subst registered
    exact ⟨targetNode,
      isTarget ▸ hosting.planted.kept hosting.targetRegistered, rfl, rfl, rfl⟩
  by_cases isParent : other = slot.parent
  · rw [isParent, spliced.parentNow, Option.some.injEq] at registered
    subst registered
    exact ⟨parentNode,
      isParent ▸ hosting.planted.kept hosting.parentRegistered, rfl, rfl, rfl⟩
  · rw [spliced.elsewhere isHost isTarget isParent] at registered
    exact ⟨node, registered, .refl node⟩

variable (wellFormed : tree.WellFormed)
include wellFormed

theorem root : ∃ node, after.nodes[tree.root]? = some node ∧
    node.parent = none := by
  have hosting := spliced.hosting
  obtain ⟨rootNode, rootRegistered, parentless, _⟩ := wellFormed.rootRegistered
  have notHost : tree.root ≠ host := by
    intro same
    have absent := hosting.absent
    rw [← same, rootRegistered] at absent
    cases absent
  have notTarget := (wellFormed.ne_root_of_slotOf hosting.found).symm
  by_cases isParent : tree.root = slot.parent
  · rw [isParent, hosting.parentRegistered] at rootRegistered
    cases rootRegistered
    exact ⟨parentNode.hostChild slot.index host, isParent ▸ spliced.parentNow,
      parentless⟩
  · refine ⟨rootNode, ?_, parentless⟩
    rw [spliced.elsewhere notHost notTarget isParent,
      hosting.planted.kept rootRegistered]

theorem fitting
    (fits : hostNode.arity.allows (hostNode.children.length + 1) = true)
    (bound : position ≤ hostNode.children.length) {other : NodeHash}
    {node : Node} (registered : after.nodes[other]? = some node) :
    node.arity.allows node.children.length = true := by
  have hosting := spliced.hosting
  by_cases isHost : other = host
  · rw [isHost, spliced.hostNow, Option.some.injEq] at registered
    subst registered
    rw [(hostNode.alike_withChild _ _).arity]
    simpa [Node.withChild, List.length_insertIdx_of_le_length bound] using fits
  by_cases isTarget : other = target
  · rw [isTarget, spliced.targetNow, Option.some.injEq] at registered
    subst registered
    simpa [Node.arity] using wellFormed.fitting hosting.targetRegistered
  by_cases isParent : other = slot.parent
  · rw [isParent, spliced.parentNow, Option.some.injEq] at registered
    subst registered
    simpa [Node.hostChild, Node.arity] using
      wellFormed.fitting hosting.parentRegistered
  · rw [spliced.elsewhere isHost isTarget isParent] at registered
    exact wellFormed.planted_fitting hosting.planted registered

theorem links_host (bound : position ≤ hostNode.children.length) :
    (hostNode.withChild position target).children.Nodup ∧
    ∀ child, child ∈ (hostNode.withChild position target).children ↔
      after.parentOf child = some host := by
  have hosting := spliced.hosting
  obtain ⟨distinct, members⟩ := wellFormed.planted_links hosting.planted
    hosting.parentRegistered hosting.hostRegistered
  have notListed : target ∉ hostNode.children := by
    intro member
    have hostListed := ((members target).mp member).1
    rw [hosting.parentOf_target] at hostListed
    exact hosting.host_ne_parent (Option.some.inj hostListed).symm
  obtain ⟨inserted, others⟩ := insertIdx_links distinct bound notListed
  refine ⟨inserted, fun child => (others child).trans ?_⟩
  rw [members]
  by_cases isTarget : child = target
  · simp [isTarget, spliced.parentOf_target]
  · simp [isTarget, spliced.parentOf_other isTarget, hosting.host_ne_parent]

theorem links_parent :
    (parentNode.hostChild slot.index host).children.Nodup ∧
    ∀ child, child ∈ (parentNode.hostChild slot.index host).children ↔
      after.parentOf child = some slot.parent := by
  have hosting := spliced.hosting
  obtain ⟨distinct, members⟩ := wellFormed.planted_links hosting.planted
    hosting.parentRegistered (hosting.planted.kept hosting.parentRegistered)
  obtain ⟨replaced, others⟩ := set_links distinct hosting.listed
    fun member => ((members host).mp member).2 rfl (by simp)
  refine ⟨replaced, fun child => (others child).trans ?_⟩
  rw [members]
  by_cases isTarget : child = target
  · simp [isTarget, spliced.parentOf_target, hosting.host_ne_parent,
      Ne.symm hosting.host_ne_target]
  by_cases isHost : child = host
  · simp [isHost, spliced.parentOf_other hosting.host_ne_target,
      hosting.parentOf_host]
  · simp [isTarget, isHost, spliced.parentOf_other isTarget]

theorem links (bound : position ≤ hostNode.children.length) {other : NodeHash}
    {node : Node} (registered : after.nodes[other]? = some node) :
    node.children.Nodup ∧
      ∀ child, child ∈ node.children ↔ after.parentOf child = some other := by
  have hosting := spliced.hosting
  by_cases isHost : other = host
  · rw [isHost, spliced.hostNow, Option.some.injEq] at registered
    subst registered isHost
    exact spliced.links_host wellFormed bound
  by_cases isParent : other = slot.parent
  · rw [isParent, spliced.parentNow, Option.some.injEq] at registered
    subst registered isParent
    exact spliced.links_parent wellFormed
  -- The other nodes list what they listed before, the target included.
  have listing : ∃ old, middle.nodes[other]? = some old ∧
      node.children = old.children := by
    by_cases isTarget : other = target
    · rw [isTarget, spliced.targetNow, Option.some.injEq] at registered
      subst registered
      exact ⟨targetNode,
        isTarget ▸ hosting.planted.kept hosting.targetRegistered, rfl⟩
    · rw [spliced.elsewhere isHost isTarget isParent] at registered
      exact ⟨node, registered, rfl⟩
  obtain ⟨old, oldRegistered, sameChildren⟩ := listing
  obtain ⟨distinct, members⟩ := wellFormed.planted_links hosting.planted
    hosting.parentRegistered oldRegistered
  rw [sameChildren]
  refine ⟨distinct, fun child => (members child).trans ?_⟩
  rw [spliced.parentOf_iff isHost isParent]
  exact and_iff_left fun same => absurd same isParent

theorem within_parent : after.Within tree.root slot.parent := by
  have hosting := spliced.hosting
  apply (wellFormed.rooted hosting.parentRegistered).transport
  intro other _ aboveParent _
  have notTarget : other ≠ target := by
    intro same
    subst same
    exact wellFormed.not_within_child hosting.above aboveParent
  obtain ⟨node, registered⟩ :=
    wellFormed.registered_of_within hosting.parentRegistered aboveParent
  rw [spliced.parentOf_other notTarget,
    hosting.planted.parentOf_kept registered]

theorem rooted {other : NodeHash} {node : Node}
    (registered : after.nodes[other]? = some node) :
    after.Within tree.root other := by
  have hosting := spliced.hosting
  obtain ⟨old, oldRegistered, _⟩ := spliced.origin registered
  refine WellFormed.within_root_of_moved (· = target) ?_ ?_
    (wellFormed.planted_rooted hosting.planted hosting.parentRegistered
      oldRegistered)
  · intro moved isTarget
    subst isTarget
    have hostAbove : after.parentOf host = some slot.parent := by
      rw [spliced.parentOf_other hosting.host_ne_target, hosting.parentOf_host]
    exact .step spliced.parentOf_target
      (.step hostAbove (spliced.within_parent wellFormed))
  · intro child parent notTarget childAbove
    rw [spliced.parentOf_other notTarget, childAbove]

theorem wellFormed_after
    (fits : hostNode.arity.allows (hostNode.children.length + 1) = true)
    (bound : position ≤ hostNode.children.length) : after.WellFormed := by
  have planted := spliced.hosting.planted
  refine wellFormed.rewired (spliced.sameRoot.trans planted.sameRoot) ?_
    (spliced.root wellFormed) (spliced.links wellFormed bound)
    (spliced.rooted wellFormed) (spliced.fitting wellFormed fits bound)
  intro other node registered
  obtain ⟨old, oldRegistered, alike⟩ := spliced.origin registered
  exact WellFormed.planted_origin planted oldRegistered alike

end Spliced

end Splicing

/-- Two nodes with different parents, neither of them below the other. -/
structure Swappable (tree : Tree) (first second : NodeHash)
    (firstSlot secondSlot : Slot)
    (firstNode secondNode firstParent secondParent : Node) : Prop where
  firstFound : tree.slotOf first = .ok firstSlot
  secondFound : tree.slotOf second = .ok secondSlot
  firstRegistered : tree.nodes[first]? = some firstNode
  secondRegistered : tree.nodes[second]? = some secondNode
  firstParentRegistered : tree.nodes[firstSlot.parent]? = some firstParent
  secondParentRegistered : tree.nodes[secondSlot.parent]? = some secondParent
  apart : firstSlot.parent ≠ secondSlot.parent
  notBelowFirst : ¬ tree.Within first second
  notBelowSecond : ¬ tree.Within second first

/-- Two nodes that were put in each other's slots. -/
structure Swapped (tree after : Tree) (first second : NodeHash)
    (firstSlot secondSlot : Slot)
    (firstNode secondNode firstParent secondParent : Node) : Prop where
  swappable : tree.Swappable first second firstSlot secondSlot firstNode
    secondNode firstParent secondParent
  sameRoot : after.root = tree.root
  firstNow : after.nodes[first]? =
    some { firstNode with parent := some secondSlot.parent }
  secondNow : after.nodes[second]? =
    some { secondNode with parent := some firstSlot.parent }
  firstParentNow : after.nodes[firstSlot.parent]? =
    some (firstParent.replaceChild firstSlot.index second)
  secondParentNow : after.nodes[secondSlot.parent]? =
    some (secondParent.replaceChild secondSlot.index first)
  elsewhere : ∀ {other : NodeHash}, other ≠ first → other ≠ second →
    other ≠ firstSlot.parent → other ≠ secondSlot.parent →
    after.nodes[other]? = tree.nodes[other]?

section Exchanging

variable {tree after : Tree} {first second : NodeHash}
  {firstSlot secondSlot : Slot}
  {firstNode secondNode firstParent secondParent : Node}

namespace Swappable

variable (swappable : tree.Swappable first second firstSlot secondSlot firstNode
  secondNode firstParent secondParent)
include swappable

theorem symm : tree.Swappable second first secondSlot firstSlot secondNode
    firstNode secondParent firstParent where
  firstFound := swappable.secondFound
  secondFound := swappable.firstFound
  firstRegistered := swappable.secondRegistered
  secondRegistered := swappable.firstRegistered
  firstParentRegistered := swappable.secondParentRegistered
  secondParentRegistered := swappable.firstParentRegistered
  apart := Ne.symm swappable.apart
  notBelowFirst := swappable.notBelowSecond
  notBelowSecond := swappable.notBelowFirst

theorem different : first ≠ second := by
  intro same
  subst same
  exact swappable.notBelowFirst .top

theorem above : tree.parentOf first = some firstSlot.parent :=
  (of_slotOf swappable.firstFound).1

theorem listed : firstParent.children[firstSlot.index]? = some first := by
  obtain ⟨_, listing, registered, listed⟩ := of_slotOf swappable.firstFound
  rw [swappable.firstParentRegistered] at registered
  cases registered
  exact listed

theorem ne_parent (wellFormed : tree.WellFormed) : first ≠ firstSlot.parent := by
  intro same
  exact wellFormed.not_within_child swappable.above (same ▸ .top)

theorem ne_otherParent : first ≠ secondSlot.parent :=
  fun same => swappable.notBelowFirst (.child swappable.symm.above same.symm)

/-- The two parents and the two nodes are updated in turn. -/
theorem swapped (wellFormed : tree.WellFormed) :
    tree.Swapped
      ((((tree.updateNode firstSlot.parent
        (·.replaceChild firstSlot.index second)).updateNode secondSlot.parent
        (·.replaceChild secondSlot.index first)).updateNode first fun node =>
          { node with parent := some secondSlot.parent }).updateNode second
        fun node => { node with parent := some firstSlot.parent })
      first second firstSlot secondSlot firstNode secondNode firstParent
      secondParent := by
  have different := swappable.different
  have apart := swappable.apart
  have firstNe := swappable.ne_parent wellFormed
  have secondNe := swappable.symm.ne_parent wellFormed
  have firstNeOther := swappable.ne_otherParent
  have secondNeOther := swappable.symm.ne_otherParent
  refine ⟨swappable, rfl, ?_, ?_, ?_, ?_, ?_⟩
  · simp [nodes_updateNode, different, firstNe, firstNeOther,
      swappable.firstRegistered]
  · simp [nodes_updateNode, Ne.symm different, secondNe, secondNeOther,
      swappable.secondRegistered]
  · simp [nodes_updateNode, apart, Ne.symm firstNe, Ne.symm secondNeOther,
      swappable.firstParentRegistered]
  · simp [nodes_updateNode, Ne.symm apart, Ne.symm secondNe,
      Ne.symm firstNeOther, swappable.secondParentRegistered]
  · intro other notFirst notSecond notFirstParent notSecondParent
    simp [nodes_updateNode, notFirst, notSecond, notFirstParent,
      notSecondParent]

end Swappable

namespace Swapped

variable (swapped : tree.Swapped after first second firstSlot secondSlot
  firstNode secondNode firstParent secondParent)
include swapped

theorem symm : tree.Swapped after second first secondSlot firstSlot secondNode
    firstNode secondParent firstParent where
  swappable := swapped.swappable.symm
  sameRoot := swapped.sameRoot
  firstNow := swapped.secondNow
  secondNow := swapped.firstNow
  firstParentNow := swapped.secondParentNow
  secondParentNow := swapped.firstParentNow
  elsewhere notSecond notFirst notSecondParent notFirstParent :=
    swapped.elsewhere notFirst notSecond notFirstParent notSecondParent

theorem parentOf_first : after.parentOf first = some secondSlot.parent := by
  rw [parentOf_eq swapped.firstNow]

theorem parentOf_other {other : NodeHash} (notFirst : other ≠ first)
    (notSecond : other ≠ second) :
    after.parentOf other = tree.parentOf other := by
  by_cases atFirst : other = firstSlot.parent
  · subst atFirst
    rw [parentOf_eq swapped.swappable.firstParentRegistered,
      parentOf_eq swapped.firstParentNow]
    rfl
  by_cases atSecond : other = secondSlot.parent
  · subst atSecond
    rw [parentOf_eq swapped.swappable.secondParentRegistered,
      parentOf_eq swapped.secondParentNow]
    rfl
  · rw [parentOf, parentOf,
      swapped.elsewhere notFirst notSecond atFirst atSecond]

theorem parentOf_iff {other child : NodeHash}
    (notFirstParent : other ≠ firstSlot.parent)
    (notSecondParent : other ≠ secondSlot.parent) :
    after.parentOf child = some other ↔ tree.parentOf child = some other := by
  by_cases isFirst : child = first
  · subst isFirst
    rw [swapped.parentOf_first, swapped.swappable.above]
    simp [Ne.symm notFirstParent, Ne.symm notSecondParent]
  by_cases isSecond : child = second
  · subst isSecond
    rw [swapped.symm.parentOf_first, swapped.swappable.symm.above]
    simp [Ne.symm notFirstParent, Ne.symm notSecondParent]
  · rw [swapped.parentOf_other isFirst isSecond]

theorem origin {other : NodeHash} {node : Node}
    (registered : after.nodes[other]? = some node) :
    ∃ old, tree.nodes[other]? = some old ∧ old.Alike node ∧
      node.children.length = old.children.length := by
  by_cases isFirst : other = first
  · rw [isFirst, swapped.firstNow, Option.some.injEq] at registered
    subst registered
    exact ⟨firstNode, isFirst ▸ swapped.swappable.firstRegistered,
      ⟨rfl, rfl, rfl⟩, rfl⟩
  by_cases isSecond : other = second
  · rw [isSecond, swapped.secondNow, Option.some.injEq] at registered
    subst registered
    exact ⟨secondNode, isSecond ▸ swapped.swappable.secondRegistered,
      ⟨rfl, rfl, rfl⟩, rfl⟩
  by_cases atFirst : other = firstSlot.parent
  · rw [atFirst, swapped.firstParentNow, Option.some.injEq] at registered
    subst registered
    exact ⟨firstParent, atFirst ▸ swapped.swappable.firstParentRegistered,
      firstParent.alike_replaceChild _ _, List.length_set⟩
  by_cases atSecond : other = secondSlot.parent
  · rw [atSecond, swapped.secondParentNow, Option.some.injEq] at registered
    subst registered
    exact ⟨secondParent, atSecond ▸ swapped.swappable.secondParentRegistered,
      secondParent.alike_replaceChild _ _, List.length_set⟩
  · rw [swapped.elsewhere isFirst isSecond atFirst atSecond] at registered
    exact ⟨node, registered, .refl node, rfl⟩

variable (wellFormed : tree.WellFormed)
include wellFormed

theorem root : ∃ node, after.nodes[tree.root]? = some node ∧
    node.parent = none := by
  have notFirst :=
    (wellFormed.ne_root_of_slotOf swapped.swappable.firstFound).symm
  have notSecond :=
    (wellFormed.ne_root_of_slotOf swapped.swappable.secondFound).symm
  have parentless : after.parentOf tree.root = none := by
    rw [swapped.parentOf_other notFirst notSecond, wellFormed.parentOf_root]
  have registered : ∃ node, after.nodes[tree.root]? = some node := by
    by_cases atFirst : tree.root = firstSlot.parent
    · exact ⟨_, atFirst ▸ swapped.firstParentNow⟩
    by_cases atSecond : tree.root = secondSlot.parent
    · exact ⟨_, atSecond ▸ swapped.secondParentNow⟩
    · obtain ⟨rootNode, rootRegistered, _⟩ := wellFormed.rootRegistered
      rw [swapped.elsewhere notFirst notSecond atFirst atSecond]
      exact ⟨rootNode, rootRegistered⟩
  obtain ⟨node, registered⟩ := registered
  exact ⟨node, registered, by rw [← parentOf_eq registered, parentless]⟩

theorem links_first : firstNode.children.Nodup ∧
    ∀ child, child ∈ firstNode.children ↔ after.parentOf child = some first := by
  obtain ⟨distinct, members⟩ :=
    wellFormed.links swapped.swappable.firstRegistered
  refine ⟨distinct, fun child => (members child).trans ?_⟩
  exact (swapped.parentOf_iff (swapped.swappable.ne_parent wellFormed)
    swapped.swappable.ne_otherParent).symm

theorem links_firstParent :
    (firstParent.replaceChild firstSlot.index second).children.Nodup ∧
    ∀ child,
      child ∈ (firstParent.replaceChild firstSlot.index second).children ↔
        after.parentOf child = some firstSlot.parent := by
  have swappable := swapped.swappable
  obtain ⟨distinct, members⟩ :=
    wellFormed.links swappable.firstParentRegistered
  have notListed : second ∉ firstParent.children := by
    intro member
    rw [members, swappable.symm.above] at member
    exact swappable.apart (Option.some.inj member).symm
  obtain ⟨replaced, others⟩ := set_links distinct swappable.listed notListed
  refine ⟨replaced, fun child => (others child).trans ?_⟩
  rw [members]
  by_cases isSecond : child = second
  · simp [isSecond, swapped.symm.parentOf_first]
  by_cases isFirst : child = first
  · simp [isFirst, swappable.different, swapped.parentOf_first,
      Ne.symm swappable.apart]
  · simp [isSecond, isFirst, swapped.parentOf_other isFirst isSecond]

theorem links {other : NodeHash} {node : Node}
    (registered : after.nodes[other]? = some node) :
    node.children.Nodup ∧
      ∀ child, child ∈ node.children ↔ after.parentOf child = some other := by
  by_cases isFirst : other = first
  · rw [isFirst, swapped.firstNow, Option.some.injEq] at registered
    subst registered isFirst
    exact swapped.links_first wellFormed
  by_cases isSecond : other = second
  · rw [isSecond, swapped.secondNow, Option.some.injEq] at registered
    subst registered isSecond
    exact swapped.symm.links_first wellFormed
  by_cases atFirst : other = firstSlot.parent
  · rw [atFirst, swapped.firstParentNow, Option.some.injEq] at registered
    subst registered atFirst
    exact swapped.links_firstParent wellFormed
  by_cases atSecond : other = secondSlot.parent
  · rw [atSecond, swapped.secondParentNow, Option.some.injEq] at registered
    subst registered atSecond
    exact swapped.symm.links_firstParent wellFormed
  · rw [swapped.elsewhere isFirst isSecond atFirst atSecond] at registered
    obtain ⟨distinct, members⟩ := wellFormed.links registered
    refine ⟨distinct, fun child => (members child).trans ?_⟩
    exact (swapped.parentOf_iff atFirst atSecond).symm

theorem within_firstParent : after.Within tree.root firstSlot.parent := by
  have swappable := swapped.swappable
  apply (wellFormed.rooted swappable.firstParentRegistered).transport
  intro other _ aboveParent _
  have notFirst : other ≠ first := by
    intro same
    subst same
    exact wellFormed.not_within_child swappable.above aboveParent
  have notSecond : other ≠ second := by
    intro same
    subst same
    exact swappable.notBelowSecond (.step swappable.above aboveParent)
  exact swapped.parentOf_other notFirst notSecond

theorem rooted {other : NodeHash} {node : Node}
    (registered : after.nodes[other]? = some node) :
    after.Within tree.root other := by
  obtain ⟨old, oldRegistered, _⟩ := swapped.origin registered
  refine WellFormed.within_root_of_moved
    (fun moved => moved = first ∨ moved = second) ?_ ?_
    (wellFormed.rooted oldRegistered)
  · intro moved isMoved
    rcases isMoved with isFirst | isSecond
    · subst isFirst
      exact .step swapped.parentOf_first
        (swapped.symm.within_firstParent wellFormed)
    · subst isSecond
      exact .step swapped.symm.parentOf_first
        (swapped.within_firstParent wellFormed)
  · intro child parent notMoved childAbove
    rw [not_or] at notMoved
    rw [swapped.parentOf_other notMoved.1 notMoved.2, childAbove]

theorem wellFormed_after : after.WellFormed := by
  refine wellFormed.rewired swapped.sameRoot ?_ (swapped.root wellFormed)
    (swapped.links wellFormed) (swapped.rooted wellFormed) ?_
  · intro other node registered
    obtain ⟨old, oldRegistered, alike, _⟩ := swapped.origin registered
    exact .inl ⟨old, oldRegistered, alike.hash, alike.isRoot⟩
  · intro other node registered
    obtain ⟨old, oldRegistered, alike, length⟩ := swapped.origin registered
    rw [alike.arity, length]
    exact wellFormed.fitting oldRegistered

end Swapped

end Exchanging

end Tree

end BehaviorTree
