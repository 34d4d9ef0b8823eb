import BehaviorTree.Proofs.Tree.Rearranging

/-!
# Edits of well-formed trees

Every edit of a well-formed tree leads to a well-formed tree or changes nothing
at all.  The checks come first; what follows them is not refused any more,
because a well-formed tree has a slot for every node but the root.
-/

namespace BehaviorTree

theorem fits_of_checkHost {kind : NodeKind} {hash : NodeHash} {name : String}
    {children : Nat} (passed : checkHost kind hash name children = .ok ()) :
    kind.arity.allows (children + 1) = true := by
  rw [checkHost] at passed
  cases arity : kind.arity with
  | leaf => simp [arity] at passed
  | single =>
      by_cases occupied : children > 0
      · simp [arity, occupied] at passed
      · simpa [Arity.allows] using occupied
  | many => rfl

theorem clampPosition_le (position : Option Nat) (count : Nat) :
    clampPosition position count ≤ count :=
  Nat.min_le_right _ _

/-- The node can follow the child that it designates, if there is one, when another
child comes in at the position. -/
def Node.HasRoom (node : Node) (position : Option Nat) : Prop :=
  node.kind.overflowsAt (clampPosition position node.children.length) = false

namespace Tree

theorem of_findMovable {tree : Tree} {hash : NodeHash} {node : Node}
    (found : tree.findMovable hash = .ok node) :
    tree.nodes[hash]? = some node ∧ node.kind.isRoot = false := by
  rw [findMovable] at found
  cases lookup : tree.find hash with
  | error refusal => simp [lookup] at found
  | ok other =>
      cases isRoot : other.kind.isRoot with
      | true => simp [lookup, isRoot] at found
      | false =>
          obtain rfl : other = node := by simpa [lookup, isRoot] using found
          exact ⟨of_find lookup, isRoot⟩

theorem of_findForeign {source : Tree} {hash : NodeHash} {node : Node}
    (found : source.findForeign hash = .ok node) :
    source.nodes[hash]? = some node ∧ node.kind.isRoot = false := by
  rw [findForeign] at found
  cases registered : source.nodes[hash]? with
  | none => simp [registered] at found
  | some other =>
      cases isRoot : other.kind.isRoot with
      | true => simp [registered, isRoot] at found
      | false =>
          obtain rfl : other = node := by simpa [registered, isRoot] using found
          exact ⟨rfl, isRoot⟩

theorem of_foreignSlotOf {other : Tree} {hash : NodeHash} {slot : Slot}
    (found : other.foreignSlotOf hash = .ok slot) :
    other.slotOf hash = .ok slot := by
  rw [foreignSlotOf] at found
  split at found
  · cases found
  · exact found

theorem of_checkTarget {tree : Tree} {target : NodeHash}
    {leaving : Option NodeHash}
    (passed : tree.checkTarget target leaving = .ok ()) :
    ∃ node, tree.nodes[target]? = some node ∧
      node.arity.allows ((node.children.filter
        fun child => some child ≠ leaving).length + 1) = true := by
  rw [checkTarget] at passed
  cases lookup : tree.find target with
  | error refusal => simp [lookup] at passed
  | ok node =>
      rw [lookup] at passed
      exact ⟨node, of_find lookup, fits_of_checkHost passed⟩

theorem fits_of_checkTarget {tree : Tree} {target : NodeHash}
    (passed : tree.checkTarget target none = .ok ()) :
    ∃ node, tree.nodes[target]? = some node ∧
      node.arity.allows (node.children.length + 1) = true := by
  simpa using of_checkTarget passed

theorem insertInto_eq {tree : Tree} {parent : NodeHash} {node : Node}
    (registered : tree.nodes[parent]? = some node) (position : Option Nat)
    (child : NodeHash) :
    insertInto parent position child tree =
      if node.kind.overflowsAt (clampPosition position node.children.length) then
        .error (.exhausted .indices) tree
      else .ok () (tree.updateNode parent fun node =>
        node.withChild (clampPosition position node.children.length) child) := by
  unfold insertInto
  rw [Edit.get_bind, registered]
  simp only [Node.insertChild_eq]
  split
  · rfl
  · exact congrArg (EStateM.Result.ok ()) (updateNode_congr registered rfl)

theorem insertInto_delivers {tree : Tree} {parent : NodeHash} {node : Node}
    (registered : tree.nodes[parent]? = some node) (position : Option Nat)
    (child : NodeHash) :
    Edit.Delivers True (node.HasRoom position)
      (fun _ after => node.HasRoom position ∧ after = tree.updateNode parent fun node =>
        node.withChild (clampPosition position node.children.length) child)
      (insertInto parent position child tree) := by
  rw [insertInto_eq registered, Node.HasRoom]
  split
  · next full => exact fun room => Bool.false_ne_true (room.symm.trans full)
  · next room => exact ⟨Bool.eq_false_iff.mpr room, rfl⟩

namespace WellFormed

variable {tree : Tree} (wellFormed : tree.WellFormed)
include wellFormed

theorem exists_slotOf_of_notRoot {hash : NodeHash} {node : Node}
    (registered : tree.nodes[hash]? = some node)
    (notRoot : node.kind.isRoot = false) :
    ∃ slot, tree.slotOf hash = .ok slot := by
  have different : hash ≠ tree.root := by
    rw [Ne, ← wellFormed.isRoot_iff registered, notRoot]
    exact Bool.false_ne_true
  obtain ⟨parent, _, parentIs, _⟩ := wellFormed.listed registered different
  have above : tree.parentOf hash = some parent := by
    rw [parentOf_eq registered, parentIs]
  obtain ⟨index, found⟩ := wellFormed.exists_slotOf above
  exact ⟨_, found⟩

theorem copyNode_spec {hash : NodeHash} {node : Node}
    (registered : tree.nodes[hash]? = some node)
    (notRoot : node.kind.isRoot = false) :
    Edit.Completes
      (fun subtree after => after = tree ∧ subtree.Proper ∧
        subtree.kind = node.kind ∧
        subtree.children.length = node.children.length)
      (copyNode hash tree) := by
  have different : hash ≠ tree.root := by
    rw [Ne, ← wellFormed.isRoot_iff registered, notRoot]
    exact Bool.false_ne_true
  obtain ⟨subtree, cloned, proper, kind, length⟩ :=
    wellFormed.cloneSubtree_spec registered different
  unfold copyNode
  refine .after_get ?_
  rw [cloned]
  exact ⟨rfl, proper, kind, length⟩

theorem attach_spec {subtree : Subtree} (proper : subtree.Proper)
    {parent : NodeHash} {parentNode : Node}
    (parentRegistered : tree.nodes[parent]? = some parentNode)
    (fits : parentNode.arity.allows (parentNode.children.length + 1) = true)
    (position : Option Nat) :
    Edit.Completes (fun _ after => after.WellFormed)
      (attach subtree parent position tree) := by
  unfold attach
  apply (register_spec subtree proper parentRegistered).bind
  intro hash middle ⟨planted, _⟩
  apply (insertInto_delivers (planted.kept parentRegistered) position hash).completes.bind
  rintro _ _ ⟨_, rfl⟩
  refine Grafted.wellFormed_after
    (?_ : tree.Grafted middle _ parent hash parentNode
      (clampPosition position parentNode.children.length)) wellFormed
    (clampPosition_le position _) fits
  refine ⟨planted, parentRegistered, rfl, ?_, ?_⟩
  · simp [planted.kept parentRegistered]
  · intro other elsewhere
    simp [elsewhere]

theorem spliceAbove_spec {subtree : Subtree} (proper : subtree.Proper)
    {target : NodeHash} {slot : Slot} (found : tree.slotOf target = .ok slot)
    (fits : subtree.kind.arity.allows (subtree.children.length + 1) = true)
    (position : Option Nat) :
    Edit.Completes (fun _ after => after.WellFormed)
      (spliceAbove subtree target position tree) := by
  obtain ⟨above, parentNode, parentRegistered, _⟩ := of_slotOf found
  obtain ⟨targetNode, targetRegistered, _⟩ := registered_of_parentOf above
  unfold spliceAbove
  refine .after_get (.after_require found ?_)
  apply (register_spec subtree proper parentRegistered).bind
  intro host middle ⟨planted, hostNode, hostRegistered, kind, length⟩
  refine .after_modify (.after_modify ?_)
  have hosting : tree.Hosting middle target host slot targetNode parentNode
      hostNode :=
    { found, targetRegistered, parentRegistered, planted, hostRegistered }
  have hostNeTarget := hosting.host_ne_target
  have hostNeParent := hosting.host_ne_parent
  have targetNeParent := hosting.target_ne_parent wellFormed
  have hostStill : ((middle.updateNode slot.parent
      (·.hostChild slot.index host)).updateNode target fun node =>
        { node with parent := some host }).nodes[host]? = some hostNode := by
    simp [nodes_updateNode, hostNeTarget, hostNeParent, hostRegistered]
  apply (insertInto_delivers hostStill position target).completes.bind
  rintro _ _ ⟨_, rfl⟩
  refine Spliced.wellFormed_after
    (?_ : tree.Spliced middle _ target host slot targetNode parentNode hostNode
      (clampPosition position hostNode.children.length)) wellFormed
    (by rwa [Node.arity, kind, length]) (clampPosition_le position _)
  refine ⟨hosting, rfl, ?_, ?_, ?_, ?_⟩
  · simp [nodes_updateNode, hostNeTarget, hostNeParent, hostRegistered]
  · simp [nodes_updateNode, Ne.symm hostNeTarget, targetNeParent,
      planted.kept targetRegistered]
  · simp [nodes_updateNode, Ne.symm hostNeParent, Ne.symm targetNeParent,
      planted.kept parentRegistered]
  · intro other notHost notTarget notParent
    simp [nodes_updateNode, notHost, notTarget, notParent]

/-- Detaching a node leaves the nodes outside in place; one of them may have
lost a child. -/
theorem detach_outcome {hash : NodeHash} {node : Node} {slot : Slot}
    (registered : tree.nodes[hash]? = some node)
    (found : tree.slotOf hash = .ok slot) :
    ∃ subtree after, detach hash tree = .ok subtree after ∧
      after.WellFormed ∧ subtree.Proper ∧ subtree.kind = node.kind ∧
      subtree.children.length = node.children.length ∧
      ∀ {other : NodeHash} {old : Node}, tree.nodes[other]? = some old →
        ¬ tree.Within hash other → ∃ current,
          after.nodes[other]? = some current ∧ old.Alike current ∧
          current.parent = old.parent ∧
          ∀ child ∈ current.children, child ∈ old.children ∧ child ≠ hash := by
  obtain ⟨subtree, remaining, _, proper, kind, length, detached, cleared⟩ :=
    wellFormed.detach_spec registered found
  obtain ⟨above, parentNode, parentRegistered, listed⟩ := of_slotOf found
  have pruned : tree.Pruned { tree with nodes := remaining } hash slot
      parentNode := ⟨found, parentRegistered, rfl, cleared⟩
  refine ⟨subtree, _, detached, pruned.wellFormed_after wellFormed, proper,
    kind, length, ?_⟩
  intro other old oldRegistered outside
  have now := pruned.kept outside
  by_cases atParent : other = slot.parent
  · subst atParent
    rw [parentRegistered] at oldRegistered
    cases oldRegistered
    rw [if_pos rfl] at now
    refine ⟨_, now, parentNode.alike_removeChild _, rfl, ?_⟩
    obtain ⟨_, members⟩ := eraseIdx_links
      (wellFormed.children_nodup parentRegistered) listed
    exact fun child member => (members child).mp member
  · rw [if_neg atParent, oldRegistered] at now
    refine ⟨old, now, .refl old, rfl, fun child member => ⟨member, ?_⟩⟩
    intro same
    subst same
    rw [wellFormed.mem_children_iff oldRegistered, above] at member
    exact atParent (Option.some.inj member).symm

/-- Filling the slot of a node that was unregistered without telling its
parent.  The parent then counts as one that was told. -/
theorem fillSlot_spec (current : Tree) {hash : NodeHash} {slot : Slot}
    (found : tree.slotOf hash = .ok slot) {subtree : Subtree}
    (proper : subtree.Proper)
    (sameRoot : current.root = tree.root)
    (cleared : tree.Cleared [hash] tree.nodes current.nodes) :
    Edit.Completes (fun _ after => after.WellFormed)
      (fillSlot slot subtree current) := by
  obtain ⟨above, parentNode, parentRegistered, listed⟩ := of_slotOf found
  obtain ⟨bound, _⟩ := List.getElem?_eq_some_iff.mp listed
  have parentOutside := wellFormed.not_within_child above
  have parentCurrent : current.nodes[slot.parent]? = some parentNode := by
    rw [cleared.kept_single parentOutside, parentRegistered]
  let told := current.updateNode slot.parent (·.removeChild slot.index)
  have parentTold : told.nodes[slot.parent]? =
      some (parentNode.removeChild slot.index) := by
    simp [told, parentCurrent]
  have toldPruned : tree.Pruned told hash slot parentNode := by
    refine ⟨found, parentRegistered, sameRoot, .of_single ?_ ?_⟩
    · intro other within
      have different : other ≠ slot.parent := by
        intro same
        subst same
        exact parentOutside within
      rw [nodes_updateNode, if_neg different, cleared.gone_single within]
    · intro other outside
      rw [nodes_updateNode, nodes_updateNode, cleared.kept_single outside]
  have toldWellFormed := toldPruned.wellFormed_after wellFormed
  unfold fillSlot
  apply (register_spec subtree proper parentCurrent).bind
  intro host middle ⟨planted, _⟩
  refine .after_modify ?_
  have length : (parentNode.removeChild slot.index).children.length + 1 =
      parentNode.children.length := by
    rw [Node.removeChild, List.length_eraseIdx_of_lt bound]
    omega
  have grafted : told.Grafted
      (middle.updateNode slot.parent (·.removeChild slot.index))
      (middle.updateNode slot.parent (·.replaceChild slot.index host))
      slot.parent host (parentNode.removeChild slot.index) slot.index := by
    refine ⟨planted.update_old parentCurrent rfl, parentTold, rfl, ?_,
      ?_⟩
    · simp [planted.kept parentCurrent, Node.replaceChild_eq host bound]
    · intro other elsewhere
      simp [elsewhere]
  apply grafted.wellFormed_after toldWellFormed
  · omega
  · rw [length, (parentNode.alike_removeChild _).arity]
    exact wellFormed.fitting parentRegistered

variable (position : Option Nat) (copying : Bool)

theorem add_upholds (origin : NodeOrigin) (target : NodeHash) :
    Edit.Upholds tree (fun _ after => after.WellFormed)
      (add origin target position copying tree) := by
  unfold add
  cases origin with
  | detached subtree =>
      refine .after_require fun _ checked => ?_
      refine .after_get (.after_require fun _ passed => ?_)
      obtain ⟨node, registered, fits⟩ := fits_of_checkTarget passed
      exact .of_completes (wellFormed.attach_spec
        (Subtree.proper_of_check checked) registered fits position)
  | resident hash =>
      refine .after_get (.after_require fun node found => ?_)
      obtain ⟨registered, notRoot⟩ := of_findMovable found
      cases copying with
      | true =>
          refine .after_get (.after_require fun _ passed => ?_)
          obtain ⟨targetNode, targetRegistered, fits⟩ :=
            fits_of_checkTarget passed
          refine .of_completes
            ((wellFormed.copyNode_spec registered notRoot).bind ?_)
          rintro subtree _ ⟨rfl, proper, _⟩
          exact wellFormed.attach_spec proper targetRegistered fits position
      | false =>
          refine .after_get (.after_guard fun movable => ?_)
          rw [not_or] at movable
          refine .after_get (.after_require fun _ passed => ?_)
          obtain ⟨targetNode, targetRegistered, fits⟩ := of_checkTarget passed
          have outside : ¬ tree.Within hash target := fun within =>
            movable.2 ((wellFormed.isAncestor_iff targetRegistered).mpr
              ⟨within, movable.1⟩)
          obtain ⟨slot, slotFound⟩ :=
            wellFormed.exists_slotOf_of_notRoot registered notRoot
          obtain ⟨subtree, after, detached, pruned, proper, _, _, rest⟩ :=
            wellFormed.detach_outcome registered slotFound
          obtain ⟨current, currentRegistered, alike, _, children⟩ :=
            rest targetRegistered outside
          -- The node that leaves was not counted when room was looked for.
          have room : current.children.length ≤ (targetNode.children.filter
              fun child => some child ≠ some hash).length := by
            refine (List.subperm_of_subset
              (pruned.children_nodup currentRegistered) ?_).length_le
            intro child member
            simpa using children child member
          refine .of_completes (.after_ok detached
            (pruned.attach_spec proper currentRegistered ?_ position))
          rw [alike.arity]
          exact Arity.allows_of_le (Nat.succ_le_succ room) fits

theorem interpose_upholds (origin : NodeOrigin) (target : NodeHash) :
    Edit.Upholds tree (fun _ after => after.WellFormed)
      (interpose origin target position copying tree) := by
  unfold interpose
  refine .after_get (.after_require fun slot found => ?_)
  cases origin with
  | detached subtree =>
      refine .after_require fun _ checked => ?_
      refine .after_require fun _ passed => ?_
      exact .of_completes (wellFormed.spliceAbove_spec
        (Subtree.proper_of_check checked) found (fits_of_checkHost passed)
        position)
  | resident hash =>
      refine .after_guard fun different => ?_
      refine .after_get (.after_require fun node movable => ?_)
      obtain ⟨registered, notRoot⟩ := of_findMovable movable
      refine .after_require fun _ passed => ?_
      have fits := fits_of_checkHost passed
      cases copying with
      | true =>
          refine .of_completes
            ((wellFormed.copyNode_spec registered notRoot).bind ?_)
          rintro subtree _ ⟨rfl, proper, kind, length⟩
          exact wellFormed.spliceAbove_spec proper found
            (by rwa [kind, length]) position
      | false =>
          refine .after_get (.after_guard fun notAbove => ?_)
          obtain ⟨above, _⟩ := of_slotOf found
          obtain ⟨targetNode, targetRegistered, parentIs⟩ :=
            registered_of_parentOf above
          have outside : ¬ tree.Within hash target := fun within =>
            notAbove ((wellFormed.isAncestor_iff targetRegistered).mpr
              ⟨within, different⟩)
          obtain ⟨hashSlot, hashFound⟩ :=
            wellFormed.exists_slotOf_of_notRoot registered notRoot
          obtain ⟨subtree, after, detached, pruned, proper, kind, length,
            rest⟩ := wellFormed.detach_outcome registered hashFound
          obtain ⟨current, currentRegistered, _, sameParent, _⟩ :=
            rest targetRegistered outside
          have stillAbove : after.parentOf target = some slot.parent := by
            rw [parentOf_eq currentRegistered, sameParent, parentIs]
          obtain ⟨index, stillFound⟩ := pruned.exists_slotOf stillAbove
          exact .of_completes (.after_ok detached
            (pruned.spliceAbove_spec proper stillFound
              (by rwa [kind, length]) position))

omit position copying

omit wellFormed in
/-- Shifting moves an entry of one child list. -/
theorem shift_moves (hash : NodeHash) (position : Option Nat) :
    Edit.Upholds tree
      (fun _ after => ∃ (slot : Slot) (parentNode : Node),
        tree.nodes[slot.parent]? = some parentNode ∧ parentNode.arity = .many ∧
        parentNode.children[slot.index]? = some hash ∧
        after = tree.updateNode slot.parent (·.moveChild slot.index
          (clampPosition position (parentNode.children.length - 1)) hash))
      (shift hash position tree) := by
  unfold shift
  refine .after_get (.after_require fun slot found => ?_)
  refine .after_get (.after_require fun parentNode parentFound => ?_)
  refine .after_guard fun many => ?_
  have parentRegistered := of_find parentFound
  obtain ⟨_, listing, listingRegistered, listed⟩ := of_slotOf found
  rw [parentRegistered] at listingRegistered
  cases listingRegistered
  exact ⟨slot, parentNode, parentRegistered, not_not.mp many, listed, rfl⟩

theorem shift_upholds (hash : NodeHash) (position : Option Nat) :
    Edit.Upholds tree (fun _ after => after.WellFormed)
      (shift hash position tree) := by
  refine (shift_moves hash position).mono ?_
  rintro _ after ⟨slot, parentNode, parentRegistered, many, listed, rfl⟩
  obtain ⟨bound, isHash⟩ := List.getElem?_eq_some_iff.mp listed
  refine wellFormed.changed fun {node} registered => ?_
  rw [parentRegistered] at registered
  cases registered
  have alike := parentNode.alike_moveChild slot.index
    (clampPosition position (parentNode.children.length - 1)) hash
  refine ⟨alike.hash, rfl, alike.isRoot, ?_, ?_⟩
  · have room : clampPosition position (parentNode.children.length - 1) ≤
        (parentNode.children.eraseIdx slot.index).length := by
      rw [List.length_eraseIdx_of_lt bound]
      exact clampPosition_le _ _
    apply (List.perm_insertIdx hash _ room).trans
    rw [← isHash]
    exact List.getElem_cons_eraseIdx_perm bound
  · rw [alike.arity, many]
    rfl

theorem reparented {hash parent : NodeHash}
    (above : tree.parentOf hash = some parent) :
    (tree.updateNode hash fun node =>
      { node with parent := some parent }).WellFormed := by
  refine wellFormed.changed fun {node} registered => ?_
  rw [parentOf_eq registered] at above
  have allowed := wellFormed.fitting registered
  exact ⟨rfl, above.symm, rfl, .refl _, allowed⟩

theorem swappedSiblings {parent first second : NodeHash} {parentNode : Node}
    {firstIndex secondIndex : Nat}
    (registered : tree.nodes[parent]? = some parentNode)
    (firstListed : parentNode.children[firstIndex]? = some first)
    (secondListed : parentNode.children[secondIndex]? = some second) :
    (tree.updateNode parent
      (·.swapChildren firstIndex secondIndex first second)).WellFormed := by
  obtain ⟨firstBound, isFirst⟩ := List.getElem?_eq_some_iff.mp firstListed
  obtain ⟨secondBound, isSecond⟩ := List.getElem?_eq_some_iff.mp secondListed
  refine wellFormed.changed fun {node} found => ?_
  rw [registered] at found
  cases found
  have alike :=
    parentNode.alike_swapChildren firstIndex secondIndex first second
  refine ⟨alike.hash, rfl, alike.isRoot, ?_, ?_⟩
  · rw [← isFirst, ← isSecond]
    exact List.set_set_perm firstBound secondBound
  · rw [alike.arity]
    exact wellFormed.fitting registered

theorem swap_upholds (first second : NodeHash) :
    Edit.Upholds tree (fun _ after => after.WellFormed)
      (swap first second tree) := by
  unfold swap
  refine .after_get (.after_require fun firstSlot firstFound => ?_)
  refine .after_get (.after_require fun secondSlot secondFound => ?_)
  obtain ⟨firstAbove, firstParent, firstParentRegistered, firstListed⟩ :=
    of_slotOf firstFound
  obtain ⟨secondAbove, secondParent, secondParentRegistered, secondListed⟩ :=
    of_slotOf secondFound
  obtain ⟨firstNode, firstRegistered, _⟩ := registered_of_parentOf firstAbove
  obtain ⟨secondNode, secondRegistered, _⟩ :=
    registered_of_parentOf secondAbove
  by_cases different : first = second
  · rw [if_pos different]
    exact wellFormed
  rw [if_neg different]
  refine .after_get (.after_guard fun apart => ?_)
  rw [not_or, wellFormed.isAncestor_iff secondRegistered,
    wellFormed.isAncestor_iff firstRegistered] at apart
  have notBelowFirst : ¬ tree.Within first second :=
    fun within => apart.1 ⟨within, different⟩
  have notBelowSecond : ¬ tree.Within second first :=
    fun within => apart.2 ⟨within, Ne.symm different⟩
  by_cases siblings : firstSlot.parent = secondSlot.parent
  · rw [if_pos siblings]
    refine .of_completes (.after_modify (.after_modify ?_))
    rw [← siblings, firstParentRegistered] at secondParentRegistered
    cases secondParentRegistered
    let swapped := tree.updateNode firstSlot.parent
      (·.swapChildren firstSlot.index secondSlot.index first second)
    have reordered : swapped.WellFormed := wellFormed.swappedSiblings
      firstParentRegistered firstListed secondListed
    have sameParents : ∀ other, swapped.parentOf other = tree.parentOf other :=
      parentOf_updateNode fun _ => rfl
    have firstStill : swapped.parentOf first = some secondSlot.parent := by
      rw [sameParents, firstAbove, siblings]
    have secondStill : swapped.parentOf second = some firstSlot.parent := by
      rw [sameParents, secondAbove, siblings]
    refine (reordered.reparented firstStill).reparented ?_
    rw [parentOf_updateNode, secondStill]
    intro node registered
    rw [← firstStill, parentOf_eq registered]
  · rw [if_neg siblings]
    refine .of_completes (.after_modify (.after_modify (.after_modify ?_)))
    have swappable : tree.Swappable first second firstSlot secondSlot firstNode
        secondNode firstParent secondParent :=
      { firstFound, secondFound, firstRegistered, secondRegistered,
        firstParentRegistered, secondParentRegistered, apart := siblings,
        notBelowFirst, notBelowSecond }
    exact (swappable.swapped wellFormed).wellFormed_after wellFormed

theorem remove_upholds (hash : NodeHash) :
    Edit.Upholds tree (fun _ after => after.WellFormed)
      (remove hash tree) := by
  unfold remove
  cases found : tree.slotOf hash with
  | error refusal =>
      unfold detach
      refine .after_get (.after_require fun slot slotFound => ?_)
      rw [found] at slotFound
      cases slotFound
  | ok slot =>
      obtain ⟨node, registered, _⟩ := registered_of_parentOf (of_slotOf found).1
      obtain ⟨subtree, after, detached, pruned, _⟩ :=
        wellFormed.detach_outcome registered found
      rw [detached]
      exact pruned

theorem rename_upholds (hash : NodeHash) (name : String) :
    Edit.Upholds tree (fun _ after => after.WellFormed)
      (rename hash name tree) := by
  unfold rename
  refine .after_get (.after_require fun _ _ => ?_)
  refine wellFormed.changed fun registered => ?_
  have allowed := wellFormed.fitting registered
  exact ⟨rfl, rfl, rfl, .refl _, allowed⟩

theorem setWeight_upholds (hash : NodeHash) (weight : Float) :
    Edit.Upholds tree (fun _ after => after.WellFormed)
      (setWeight hash weight tree) := by
  unfold setWeight
  refine .after_get (.after_require fun _ _ => ?_)
  refine wellFormed.changed fun registered => ?_
  have allowed := wellFormed.fitting registered
  exact ⟨rfl, rfl, rfl, .refl _, allowed⟩

theorem replaceKind_upholds (hash : NodeHash) (kind : NodeKind) :
    Edit.Upholds tree (fun _ after => after.WellFormed)
      (replaceKind hash kind tree) := by
  unfold replaceKind
  refine .after_get (.after_require fun node found => ?_)
  refine .after_guard fun notRoot => .after_guard fun misfit => ?_
  have registered := of_find found
  rw [not_or, Bool.not_eq_true, Bool.not_eq_true] at notRoot
  refine wellFormed.changed fun {other} otherRegistered => ?_
  rw [registered] at otherRegistered
  cases otherRegistered
  refine ⟨rfl, rfl, ?_, .refl _, by simpa [Node.arity] using misfit⟩
  rw [notRoot.1]
  exact notRoot.2

end WellFormed

end Tree

/-- Both trees are well-formed. -/
structure TreePair.WellFormed (pair : TreePair) : Prop where
  dest : pair.dest.WellFormed
  source : pair.source.WellFormed

namespace TreePair.WellFormed

open BehaviorTree.Tree

variable {pair : TreePair} (wellFormed : pair.WellFormed)
include wellFormed

theorem fetchForeign_spec {hash : NodeHash} {node : Node}
    (registered : pair.source.nodes[hash]? = some node)
    (notRoot : node.kind.isRoot = false) (copying : Bool) :
    Edit.Completes
      (fun subtree after => after.dest = pair.dest ∧
        after.source.WellFormed ∧ subtree.Proper ∧
        subtree.kind = node.kind ∧
        subtree.children.length = node.children.length)
      (fetchForeign hash copying pair) := by
  obtain ⟨slot, found⟩ :=
    wellFormed.source.exists_slotOf_of_notRoot registered notRoot
  unfold fetchForeign
  cases copying with
  | true =>
      refine .after_get ?_
      obtain ⟨subtree, cloned, proper, kind, length⟩ :=
        wellFormed.source.cloneSubtree_spec registered
          (wellFormed.source.ne_root_of_slotOf found)
      rw [cloned]
      exact ⟨rfl, wellFormed.source, proper, kind, length⟩
  | false =>
      obtain ⟨subtree, after, detached, pruned, proper, kind, length, _⟩ :=
        wellFormed.source.detach_outcome registered found
      rw [if_neg Bool.false_ne_true]
      refine .zoom ?_
      rw [detached]
      exact ⟨rfl, pruned, proper, kind, length⟩

variable (position : Option Nat) (copying : Bool)

theorem addForeign_upholds (hash target : NodeHash) :
    Edit.Upholds pair (fun _ after => after.WellFormed)
      (addForeign hash target position copying pair) := by
  unfold addForeign
  refine .after_get (.after_require fun node found => ?_)
  refine .after_get (.after_require fun _ passed => ?_)
  obtain ⟨registered, notRoot⟩ := of_findForeign found
  obtain ⟨targetNode, targetRegistered, fits⟩ := fits_of_checkTarget passed
  refine .of_completes
    ((wellFormed.fetchForeign_spec registered notRoot copying).bind ?_)
  rintro subtree ⟨dest, source⟩ ⟨rfl, sourceWellFormed, proper, _⟩
  refine .zoom ((wellFormed.dest.attach_spec proper targetRegistered fits
    position).mono ?_)
  exact fun _ after attached => ⟨attached, sourceWellFormed⟩

theorem interposeForeign_upholds (hash target : NodeHash) :
    Edit.Upholds pair (fun _ after => after.WellFormed)
      (interposeForeign hash target position copying pair) := by
  unfold interposeForeign
  refine .after_get (.after_require fun slot slotFound => ?_)
  refine .after_get (.after_require fun node found => ?_)
  refine .after_require fun _ passed => ?_
  obtain ⟨registered, notRoot⟩ := of_findForeign found
  refine .of_completes
    ((wellFormed.fetchForeign_spec registered notRoot copying).bind ?_)
  rintro subtree ⟨dest, source⟩ ⟨rfl, sourceWellFormed, proper, kind, length⟩
  refine .zoom ((wellFormed.dest.spliceAbove_spec proper slotFound
    ?_ position).mono ?_)
  · rw [kind, length]
    exact fits_of_checkHost passed
  · exact fun _ after spliced => ⟨spliced, sourceWellFormed⟩

omit wellFormed position copying in
/-- A swap is refused just if one of the nodes has no slot. -/
theorem swapForeign_cases (first second : NodeHash) :
    (∃ firstSlot secondSlot, pair.dest.slotOf first = .ok firstSlot ∧
      pair.source.slotOf second = .ok secondSlot) ∨
    (∃ cause, swapForeign first second pair = .error (.refused cause) pair) ∧
      ∀ {firstSlot secondSlot : Slot}, pair.dest.slotOf first = .ok firstSlot →
        pair.source.slotOf second ≠ .ok secondSlot := by
  unfold swapForeign
  rw [Edit.get_bind]
  cases firstFound : pair.dest.slotOf first with
  | error cause => exact .inr ⟨⟨cause, rfl⟩, nofun⟩
  | ok firstSlot =>
      change _ ∨ (∃ cause, (Edit.require (pair.source.foreignSlotOf second) >>= _)
        pair = _) ∧ _
      cases foreignFound : pair.source.foreignSlotOf second with
      | ok secondSlot =>
          exact .inl ⟨firstSlot, secondSlot, rfl, of_foreignSlotOf foreignFound⟩
      | error cause =>
          refine .inr ⟨⟨cause, rfl⟩, fun {_ secondSlot} _ secondFound => ?_⟩
          rw [foreignSlotOf, secondFound] at foreignFound
          cases foreignFound

omit position copying in
/-- Both nodes leave before either slot is filled, first the one of the destination
tree. -/
theorem swapForeign_delivers {first second : NodeHash} {firstSlot secondSlot : Slot}
    (firstFound : pair.dest.slotOf first = .ok firstSlot)
    (secondFound : pair.source.slotOf second = .ok secondSlot) :
    ∃ firstTree secondTree dest source,
      pair.dest.cloneSubtree first = some firstTree ∧
      pair.source.cloneSubtree second = some secondTree ∧
      firstTree.Proper ∧ secondTree.Proper ∧
      dest = { pair.dest with nodes := dest.nodes } ∧
      source = { pair.source with nodes := source.nodes } ∧
      pair.dest.Cleared [first] pair.dest.nodes dest.nodes ∧
      pair.source.Cleared [second] pair.source.nodes source.nodes ∧
      ∀ {destEnough sourceEnough room : Prop} {here there : NodeHash → Tree → Prop},
        Edit.Delivers destEnough room here (fillSlot firstSlot secondTree dest) →
        Edit.Delivers sourceEnough room there (fillSlot secondSlot firstTree source) →
        Edit.Delivers (destEnough ∧ sourceEnough) room
          (fun tops after => here tops.2 after.dest ∧ there tops.1 after.source)
          (swapForeign first second pair) := by
  have foreignFound : pair.source.foreignSlotOf second = .ok secondSlot := by
    rw [foreignSlotOf, secondFound]
  obtain ⟨firstNode, firstRegistered, _⟩ :=
    registered_of_parentOf (of_slotOf firstFound).1
  obtain ⟨secondNode, secondRegistered, _⟩ :=
    registered_of_parentOf (of_slotOf secondFound).1
  obtain ⟨firstTree, destNodes, firstCloned, firstProper, _, _, firstTaken,
    firstCleared⟩ := wellFormed.dest.unregister_spec pair.dest firstRegistered
      (wellFormed.dest.ne_root_of_slotOf firstFound) rfl fun _ _ => rfl
  obtain ⟨secondTree, sourceNodes, secondCloned, secondProper, _, _, secondTaken,
    secondCleared⟩ := wellFormed.source.unregister_spec pair.source
      secondRegistered (wellFormed.source.ne_root_of_slotOf secondFound) rfl
      fun _ _ => rfl
  refine ⟨firstTree, secondTree,
    { pair.dest with nodes := destNodes }, { pair.source with nodes := sourceNodes },
    firstCloned, secondCloned, firstProper, secondProper,
    rfl, rfl, firstCleared, secondCleared, ?_⟩
  intro destEnough sourceEnough room here there destFills sourceFills
  have firstOut : Edit.onDest (unregister first) pair = .ok firstTree
      { pair with dest := { pair.dest with nodes := destNodes } } := by
    rw [Edit.onDest, Edit.zoom, firstTaken]
  have secondOut : Edit.onSource (unregister second)
        { pair with dest := { pair.dest with nodes := destNodes } } =
      .ok secondTree
        { dest := { pair.dest with nodes := destNodes }
          source := { pair.source with nodes := sourceNodes } } := by
    rw [Edit.onSource, Edit.zoom, secondTaken]
  have destFilled : Edit.Delivers destEnough room
      (fun secondHere after => here secondHere after.dest ∧
        after.source = { pair.source with nodes := sourceNodes })
      (Edit.onDest (fillSlot firstSlot secondTree)
        { dest := { pair.dest with nodes := destNodes }
          source := { pair.source with nodes := sourceNodes } }) :=
    .zoom (destFills.mono id id
      fun secondHere dest filled => ⟨filled, rfl⟩)
  unfold swapForeign
  refine .after_get (.after_require firstFound (.after_get
    (.after_require foreignFound (.after_ok firstOut (.after_ok secondOut
      (destFilled.bind (fun enough => enough.1) id ?_))))))
  rintro secondHere ⟨dest, source⟩ ⟨destHere, rfl⟩
  have sourceFilled : Edit.Delivers sourceEnough room
      (fun firstThere after =>
        here secondHere after.dest ∧ there firstThere after.source)
      (Edit.onSource (fillSlot secondSlot firstTree)
        { dest, source := { pair.source with nodes := sourceNodes } }) :=
    .zoom (sourceFills.mono id id
      fun firstThere source filled => ⟨destHere, filled⟩)
  exact sourceFilled.bind (fun enough => enough.2) id fun _ _ both => both

omit position copying in
theorem swapForeign_upholds (first second : NodeHash) :
    Edit.Upholds pair (fun _ after => after.WellFormed)
      (swapForeign first second pair) := by
  rcases swapForeign_cases first second with
    ⟨firstSlot, secondSlot, firstFound, secondFound⟩ | ⟨⟨cause, refused⟩, _⟩
  · obtain ⟨firstTree, secondTree, dest, source, _, _, firstProper, secondProper,
      sameDest, sameSource, firstCleared, secondCleared, delivers⟩ :=
      wellFormed.swapForeign_delivers firstFound secondFound
    have filled := delivers
      (.of_completes (wellFormed.dest.fillSlot_spec dest firstFound secondProper
        (by rw [sameDest]) firstCleared))
      (.of_completes (wellFormed.source.fillSlot_spec source secondFound firstProper
        (by rw [sameSource]) secondCleared))
    exact .of_completes (filled.completes.mono fun _ _ both => ⟨both.1, both.2⟩)
  · rw [refused]
    exact rfl

end TreePair.WellFormed

end BehaviorTree
