import Mathlib.Logic.Equiv.Basic
import BehaviorTree.Proofs.Tree.Adding

/-!
# Exchanging slots

Swapping two nodes of a tree goes through just if both can move and neither lies
above the other.  It exchanges their hashes in all child lists, with the parents
of the two, and leaves all else alone but the designations of those parents.
Doing it again undoes it.
-/

namespace BehaviorTree

namespace Tree

section ChildLists

variable {children : List NodeHash} {first second : NodeHash}

theorem map_swap_of_not_listed (firstNotListed : first ∉ children)
    (secondNotListed : second ∉ children) :
    children.map (Equiv.swap first second) = children := by
  refine (List.map_congr_left fun child member => ?_).trans (List.map_id _)
  refine Equiv.swap_apply_of_ne_of_ne ?_ ?_
  · rintro rfl
    exact firstNotListed member
  · rintro rfl
    exact secondNotListed member

theorem set_eq_map_swap {index : Nat} (distinct : children.Nodup)
    (listed : children[index]? = some first) (notListed : second ∉ children) :
    children.set index second = children.map (Equiv.swap first second) := by
  obtain ⟨bound, _⟩ := List.getElem?_eq_some_iff.mp listed
  refine List.ext_getElem? fun place => ?_
  rw [List.getElem?_set, List.getElem?_map]
  by_cases here : index = place
  · rw [if_pos here, if_pos bound, ← here, listed, Option.map_some,
      Equiv.swap_apply_left]
  · rw [if_neg here]
    cases found : children[place]? with
    | none => rfl
    | some child =>
        have notFirst : child ≠ first := by
          rintro rfl
          exact here ((List.getElem?_inj bound distinct).mp (listed.trans found.symm))
        have notSecond : child ≠ second := by
          rintro rfl
          exact notListed (List.mem_of_getElem? found)
        rw [Option.map_some, Equiv.swap_apply_of_ne_of_ne notFirst notSecond]

theorem set_set_eq_map_swap {firstIndex secondIndex : Nat}
    (distinct : children.Nodup)
    (firstListed : children[firstIndex]? = some first)
    (secondListed : children[secondIndex]? = some second) :
    (children.set firstIndex second).set secondIndex first =
      children.map (Equiv.swap first second) := by
  obtain ⟨firstBound, _⟩ := List.getElem?_eq_some_iff.mp firstListed
  obtain ⟨secondBound, _⟩ := List.getElem?_eq_some_iff.mp secondListed
  refine List.ext_getElem? fun place => ?_
  rw [List.getElem?_set, List.getElem?_set, List.length_set, List.getElem?_map]
  by_cases atSecond : secondIndex = place
  · rw [if_pos atSecond, if_pos secondBound, ← atSecond, secondListed,
      Option.map_some, Equiv.swap_apply_right]
  by_cases atFirst : firstIndex = place
  · rw [if_neg atSecond, if_pos atFirst, if_pos firstBound, ← atFirst, firstListed,
      Option.map_some, Equiv.swap_apply_left]
  · rw [if_neg atSecond, if_neg atFirst]
    cases found : children[place]? with
    | none => rfl
    | some child =>
        have notFirst : child ≠ first := by
          rintro rfl
          exact atFirst
            ((List.getElem?_inj firstBound distinct).mp
              (firstListed.trans found.symm))
        have notSecond : child ≠ second := by
          rintro rfl
          exact atSecond
            ((List.getElem?_inj secondBound distinct).mp
              (secondListed.trans found.symm))
        rw [Option.map_some, Equiv.swap_apply_of_ne_of_ne notFirst notSecond]

end ChildLists

/-- Both nodes can move, and neither lies strictly above the other. -/
structure Exchangeable (tree : Tree) (first second : NodeHash) : Prop where
  firstMovable : tree.Movable first
  secondMovable : tree.Movable second
  notAbove : tree.Within first second → first = second
  notBelow : tree.Within second first → first = second

/-- The kind of a node after two slots were exchanged. -/
def exchangedKind (firstSlot secondSlot : Slot) (hash : NodeHash)
    (kind : NodeKind) : NodeKind :=
  if hash = firstSlot.parent then
    if hash = secondSlot.parent then
      kind.childrenSwapped firstSlot.index secondSlot.index
    else kind.childReplaced firstSlot.index
  else if hash = secondSlot.parent then kind.childReplaced secondSlot.index
  else kind

theorem exchangedKind_comm (firstSlot secondSlot : Slot) (hash : NodeHash)
    (kind : NodeKind) : exchangedKind firstSlot secondSlot hash kind =
      exchangedKind secondSlot firstSlot hash kind := by
  have swapped : kind.childrenSwapped firstSlot.index secondSlot.index =
      kind.childrenSwapped secondSlot.index firstSlot.index := by
    rw [NodeKind.childrenSwapped, NodeKind.childrenSwapped]
    congr 1
    funext primary
    by_cases atFirst : primary.toNat = firstSlot.index
    · by_cases atSecond : primary.toNat = secondSlot.index
      · rw [if_pos atFirst, if_pos atSecond, ← atFirst, ← atSecond]
      · rw [if_pos atFirst, if_neg atSecond, if_pos atFirst]
    · rw [if_neg atFirst, if_neg atFirst]
  rw [exchangedKind, exchangedKind, swapped]
  by_cases atFirst : hash = firstSlot.parent
  · simp only [if_pos atFirst]
  · simp only [if_neg atFirst]

theorem exchangedKind_self (slot : Slot) (hash : NodeHash) (kind : NodeKind) :
    exchangedKind slot slot hash kind = kind := by
  have unmoved : kind.childrenSwapped slot.index slot.index = kind := by
    refine NodeKind.mapPrimary_eq_self fun primary _ => ?_
    by_cases here : primary.toNat = slot.index
    · rw [if_pos here, ← here, Nat.toUInt64_eq, UInt64.ofNat_toNat]
    · rw [if_neg here, if_neg here]
  rw [exchangedKind, unmoved]
  by_cases atParent : hash = slot.parent
  · simp only [if_pos atParent]
  · simp only [if_neg atParent]

/-- `after` is `tree` with the two hashes exchanged in all child lists, and the
parents of the two nodes with them. -/
structure Exchanged (tree after : Tree) (first second : NodeHash)
    (firstSlot secondSlot : Slot) : Prop where
  firstFound : tree.slotOf first = .ok firstSlot
  secondFound : tree.slotOf second = .ok secondSlot
  same : after = { tree with nodes := after.nodes }
  nodes : ∀ other : NodeHash,
    after.nodes[other]? = (tree.nodes[other]?).map fun node =>
      { node with
        parent := tree.parentOf (Equiv.swap first second other)
        children := node.children.map (Equiv.swap first second)
        kind := exchangedKind firstSlot secondSlot other node.kind }

section Rearranging

variable {tree : Tree} (wellFormed : tree.WellFormed) {first second : NodeHash}
  {firstSlot secondSlot : Slot} (firstFound : tree.slotOf first = .ok firstSlot)
  (secondFound : tree.slotOf second = .ok secondSlot)
include wellFormed firstFound secondFound

theorem children_elsewhere {other : NodeHash} {node : Node}
    (registered : tree.nodes[other]? = some node)
    (notFirstParent : other ≠ firstSlot.parent)
    (notSecondParent : other ≠ secondSlot.parent) :
    node.children.map (Equiv.swap first second) = node.children :=
  map_swap_of_not_listed
    (wellFormed.not_listed_elsewhere (of_slotOf firstFound).1 registered
      notFirstParent)
    (wellFormed.not_listed_elsewhere (of_slotOf secondFound).1 registered
      notSecondParent)

theorem nodes_swapSiblings (siblings : firstSlot.parent = secondSlot.parent)
    (other : NodeHash) :
    (tree.updateNode firstSlot.parent (·.swapChildren firstSlot.index
      secondSlot.index first second)).nodes[other]? =
      (tree.nodes[other]?).map fun node =>
        { node with
          children := node.children.map (Equiv.swap first second)
          kind := exchangedKind firstSlot secondSlot other node.kind } := by
  obtain ⟨_, parentNode, parentRegistered, firstListed⟩ := of_slotOf firstFound
  obtain ⟨_, sameNode, sameRegistered, secondListed⟩ := of_slotOf secondFound
  rw [← siblings, parentRegistered, Option.some.injEq] at sameRegistered
  subst sameRegistered
  rw [nodes_updateNode]
  by_cases atParent : other = firstSlot.parent
  · rw [if_pos atParent, atParent, parentRegistered, Option.map_some,
      Option.map_some, Node.swapChildren, exchangedKind, if_pos rfl,
      if_pos siblings, set_set_eq_map_swap (wellFormed.children_nodup parentRegistered)
        firstListed secondListed]
  · rw [if_neg atParent]
    cases registered : tree.nodes[other]? with
    | none => rfl
    | some node =>
        have notSecondParent : other ≠ secondSlot.parent := siblings ▸ atParent
        rw [Option.map_some, exchangedKind, if_neg atParent,
          if_neg notSecondParent, children_elsewhere wellFormed firstFound
            secondFound registered atParent notSecondParent]

theorem nodes_swapApart (apart : firstSlot.parent ≠ secondSlot.parent)
    (other : NodeHash) :
    ((tree.updateNode firstSlot.parent
        (·.replaceChild firstSlot.index second)).updateNode secondSlot.parent
        (·.replaceChild secondSlot.index first)).nodes[other]? =
      (tree.nodes[other]?).map fun node =>
        { node with
          children := node.children.map (Equiv.swap first second)
          kind := exchangedKind firstSlot secondSlot other node.kind } := by
  obtain ⟨firstAbove, firstParent, firstRegistered, firstListed⟩ :=
    of_slotOf firstFound
  obtain ⟨secondAbove, secondParent, secondRegistered, secondListed⟩ :=
    of_slotOf secondFound
  rw [nodes_updateNode, nodes_updateNode]
  by_cases atFirst : other = firstSlot.parent
  · subst atFirst
    have notListed : second ∉ firstParent.children :=
      wellFormed.not_listed_elsewhere secondAbove firstRegistered apart
    rw [if_neg apart, if_pos rfl, firstRegistered, Option.map_some,
      Option.map_some, Node.replaceChild, exchangedKind, if_pos rfl, if_neg apart,
      set_eq_map_swap (wellFormed.children_nodup firstRegistered) firstListed
        notListed]
  by_cases atSecond : other = secondSlot.parent
  · subst atSecond
    have notListed : first ∉ secondParent.children :=
      wellFormed.not_listed_elsewhere firstAbove secondRegistered apart.symm
    rw [if_pos rfl, if_neg atFirst, secondRegistered, Option.map_some,
      Option.map_some, Node.replaceChild, exchangedKind, if_neg atFirst,
      if_pos rfl, set_eq_map_swap (wellFormed.children_nodup secondRegistered)
        secondListed notListed, Equiv.swap_comm]
  · rw [if_neg atSecond, if_neg atFirst]
    cases registered : tree.nodes[other]? with
    | none => rfl
    | some node =>
        rw [Option.map_some, exchangedKind, if_neg atFirst, if_neg atSecond,
          children_elsewhere wellFormed firstFound secondFound registered atFirst
            atSecond]

omit wellFormed in
/-- Exchanging the parents of the two nodes completes the exchange. -/
theorem Exchanged.of_middle {middle : Tree}
    (same : middle = { tree with nodes := middle.nodes })
    (rearranged : ∀ other : NodeHash, middle.nodes[other]? =
      (tree.nodes[other]?).map fun node =>
        { node with
          children := node.children.map (Equiv.swap first second)
          kind := exchangedKind firstSlot secondSlot other node.kind }) :
    tree.Exchanged
      ((middle.updateNode first fun node =>
        { node with parent := some secondSlot.parent }).updateNode second
        fun node => { node with parent := some firstSlot.parent })
      first second firstSlot secondSlot where
  firstFound := firstFound
  secondFound := secondFound
  same := by
    rw [same]
    rfl
  nodes := by
    intro other
    rw [nodes_updateNode, nodes_updateNode, rearranged]
    by_cases isSecond : other = second
    · rw [isSecond, if_pos rfl, Equiv.swap_apply_right, (of_slotOf firstFound).1]
      split <;> simp [Option.map_map, Function.comp_def]
    by_cases isFirst : other = first
    · rw [if_neg isSecond, if_pos isFirst, isFirst, Equiv.swap_apply_left,
        (of_slotOf secondFound).1, Option.map_map]
      rfl
    · rw [if_neg isSecond, if_neg isFirst,
        Equiv.swap_apply_of_ne_of_ne isFirst isSecond]
      cases registered : tree.nodes[other]? with
      | none => rfl
      | some node => rw [parentOf_eq registered]; rfl

end Rearranging

namespace Exchanged

variable {tree after : Tree} {first second : NodeHash}
  {firstSlot secondSlot : Slot}
  (exchanged : tree.Exchanged after first second firstSlot secondSlot)
include exchanged

theorem nodes_some {other : NodeHash} {node : Node}
    (registered : tree.nodes[other]? = some node) :
    after.nodes[other]? = some
      { node with
        parent := tree.parentOf (Equiv.swap first second other)
        children := node.children.map (Equiv.swap first second)
        kind := exchangedKind firstSlot secondSlot other node.kind } := by
  rw [exchanged.nodes, registered, Option.map_some]

theorem nodes_eq_none {other : NodeHash} (absent : tree.nodes[other]? = none) :
    after.nodes[other]? = none := by
  rw [exchanged.nodes, absent, Option.map_none]

theorem childrenOf_eq (other : NodeHash) :
    after.childrenOf other =
      (tree.childrenOf other).map (Equiv.swap first second) := by
  cases registered : tree.nodes[other]? with
  | none => rw [childrenOf, childrenOf, registered, exchanged.nodes_eq_none registered]; rfl
  | some node =>
      rw [Tree.childrenOf_eq registered,
        Tree.childrenOf_eq (exchanged.nodes_some registered)]

theorem parentOf_eq (other : NodeHash) :
    after.parentOf other = tree.parentOf (Equiv.swap first second other) := by
  cases registered : tree.nodes[other]? with
  | some node => rw [Tree.parentOf_eq (exchanged.nodes_some registered)]
  | none =>
      have neither : ∀ {hash : NodeHash} {slot : Slot},
          tree.slotOf hash = .ok slot → other ≠ hash := by
        rintro hash slot found rfl
        obtain ⟨node, present, _⟩ := registered_of_parentOf (of_slotOf found).1
        rw [registered] at present
        cases present
      rw [Equiv.swap_apply_of_ne_of_ne (neither exchanged.firstFound)
        (neither exchanged.secondFound), parentOf, parentOf, registered,
        exchanged.nodes_eq_none registered]

variable (wellFormed : tree.WellFormed)
include wellFormed

theorem slotOf_first (laterWellFormed : after.WellFormed) :
    after.slotOf first = .ok secondSlot ∧ after.slotOf second = .ok firstSlot := by
  obtain ⟨firstAbove, firstListed⟩ :=
    wellFormed.slotOf_eq_ok_iff.mp exchanged.firstFound
  obtain ⟨secondAbove, secondListed⟩ :=
    wellFormed.slotOf_eq_ok_iff.mp exchanged.secondFound
  rw [laterWellFormed.slotOf_eq_ok_iff, laterWellFormed.slotOf_eq_ok_iff,
    exchanged.parentOf_eq, exchanged.parentOf_eq, exchanged.childrenOf_eq,
    exchanged.childrenOf_eq, Equiv.swap_apply_left, Equiv.swap_apply_right,
    List.getElem?_map, List.getElem?_map, firstListed, secondListed,
    Option.map_some, Option.map_some, Equiv.swap_apply_left,
    Equiv.swap_apply_right]
  exact ⟨⟨secondAbove, rfl⟩, firstAbove, rfl⟩

theorem within_before {other : NodeHash} (within : after.Within first other) :
    tree.Within first other := by
  have firstAbove := (of_slotOf exchanged.firstFound).1
  induction within with
  | top => exact .top
  | @step other parent above _ below =>
      rw [exchanged.parentOf_eq] at above
      by_cases isFirst : other = first
      · exact isFirst ▸ .top
      by_cases isSecond : other = second
      · rw [isSecond, Equiv.swap_apply_right, firstAbove, Option.some.injEq] at above
        exact (wellFormed.not_within_child firstAbove (above ▸ below)).elim
      · rw [Equiv.swap_apply_of_ne_of_ne isFirst isSecond] at above
        exact .step above below

theorem cloneSubtree_first (laterWellFormed : after.WellFormed)
    (apart : tree.Within first second → first = second) :
    after.cloneSubtree first = tree.cloneSubtree first := by
  have firstAbove := (of_slotOf exchanged.firstFound).1
  have secondAbove := (of_slotOf exchanged.secondFound).1
  obtain ⟨node, registered, _⟩ := registered_of_parentOf firstAbove
  refine wellFormed.cloneSubtree_congr laterWellFormed registered ?_
  intro other old within oldRegistered
  have notFirstParent : other ≠ firstSlot.parent := by
    rintro rfl
    exact wellFormed.not_within_child firstAbove within
  have notSecondParent : other ≠ secondSlot.parent := by
    rintro rfl
    obtain rfl := apart (within.trans (.child secondAbove rfl))
    exact wellFormed.not_within_child secondAbove within
  refine ⟨tree.parentOf (Equiv.swap first second other), ?_⟩
  rw [exchanged.nodes_some oldRegistered, exchangedKind, if_neg notFirstParent, if_neg notSecondParent,
    children_elsewhere wellFormed exchanged.firstFound exchanged.secondFound
      oldRegistered notFirstParent notSecondParent]

omit wellFormed in
theorem symm : tree.Exchanged after second first secondSlot firstSlot where
  firstFound := exchanged.secondFound
  secondFound := exchanged.firstFound
  same := exchanged.same
  nodes := by
    intro other
    rw [exchanged.nodes, Equiv.swap_comm]
    simp only [exchangedKind_comm]

end Exchanged

/-- What swapping two nodes does.  Each gets the slot of the other one and keeps
what is below it, and swapping them again puts everything back. -/
structure Trades (tree after : Tree) (first second : NodeHash) : Prop where
  idle : first = second → after = tree
  exchanged : ∃ firstSlot secondSlot,
    tree.Exchanged after first second firstSlot secondSlot ∧
    after.slotOf first = .ok secondSlot ∧ after.slotOf second = .ok firstSlot
  firstKept : after.cloneSubtree first = tree.cloneSubtree first
  secondKept : after.cloneSubtree second = tree.cloneSubtree second
  undone : ∃ final, swap first second after = .ok ⟨⟩ final ∧
    ∀ hash, final.childrenOf hash = tree.childrenOf hash ∧
      final.parentOf hash = tree.parentOf hash

namespace WellFormed

variable {tree : Tree} (wellFormed : tree.WellFormed) {first second : NodeHash}
include wellFormed

omit wellFormed in
theorem exchanged_self {slot : Slot} (found : tree.slotOf first = .ok slot) :
    tree.Exchanged tree first first slot slot where
  firstFound := found
  secondFound := found
  same := rfl
  nodes := by
    intro other
    cases registered : tree.nodes[other]? with
    | none => rfl
    | some node =>
        simp only [Equiv.swap_self, Equiv.coe_refl, List.map_id_fun, id_eq,
          exchangedKind_self, Option.map_some, parentOf_eq registered]

theorem swap_exchanges (first second : NodeHash) :
    Edit.Exact (tree.Exchangeable first second) True True
      (fun _ after => (first = second → after = tree) ∧
        ∃ firstSlot secondSlot,
          tree.Exchanged after first second firstSlot secondSlot) tree
      (swap first second tree) := by
  unfold swap
  refine .after_get (.after_require ?_ fun firstSlot firstFound => ?_)
  · exact fun cause refused exchangeable =>
      wellFormed.not_movable_of_slotOf refused exchangeable.firstMovable
  refine .after_get (.after_require ?_ fun secondSlot secondFound => ?_)
  · exact fun cause refused exchangeable =>
      wellFormed.not_movable_of_slotOf refused exchangeable.secondMovable
  have firstMovable := Movable.of_slotOf wellFormed firstFound
  have secondMovable := Movable.of_slotOf wellFormed secondFound
  by_cases different : first = second
  · subst different
    rw [firstFound, Except.ok.injEq] at secondFound
    subst secondFound
    rw [if_pos rfl]
    exact ⟨⟨firstMovable, secondMovable, fun _ => rfl, fun _ => rfl⟩, fun _ => rfl,
      firstSlot, firstSlot, exchanged_self firstFound⟩
  rw [if_neg different]
  obtain ⟨firstNode, firstRegistered⟩ := firstMovable.1
  obtain ⟨secondNode, secondRegistered⟩ := secondMovable.1
  refine .after_get (.after_guard ?_ fun apart => ?_)
  · rw [wellFormed.isAncestor_iff secondRegistered,
      wellFormed.isAncestor_iff firstRegistered]
    rintro (⟨within, strictly⟩ | ⟨within, strictly⟩) exchangeable
    · exact strictly (exchangeable.notAbove within)
    · exact strictly (exchangeable.notBelow within).symm
  rw [wellFormed.isAncestor_iff secondRegistered,
    wellFormed.isAncestor_iff firstRegistered, not_or] at apart
  have exchangeable : tree.Exchangeable first second :=
    ⟨firstMovable, secondMovable,
      fun within => (apart.1 ⟨within, different⟩).elim,
      fun within => (apart.2 ⟨within, Ne.symm different⟩).elim⟩
  by_cases siblings : firstSlot.parent = secondSlot.parent
  · rw [if_pos siblings]
    exact ⟨exchangeable, fun same => (different same).elim, firstSlot, secondSlot,
      .of_middle firstFound secondFound rfl
        (nodes_swapSiblings wellFormed firstFound secondFound siblings)⟩
  · rw [if_neg siblings]
    exact ⟨exchangeable, fun same => (different same).elim, firstSlot, secondSlot,
      .of_middle firstFound secondFound rfl
        (nodes_swapApart wellFormed firstFound secondFound siblings)⟩

theorem exchangeable_again (exchangeable : tree.Exchangeable first second)
    {after : Tree} {firstSlot secondSlot : Slot}
    (exchanged : tree.Exchanged after first second firstSlot secondSlot) :
    after.Exchangeable first second := by
  have stillMovable : ∀ {hash : NodeHash}, tree.Movable hash →
      after.Movable hash := by
    rintro hash ⟨⟨node, registered⟩, notRoot⟩
    refine ⟨⟨_, exchanged.nodes_some registered⟩, ?_⟩
    rw [exchanged.same]
    exact notRoot
  exact ⟨stillMovable exchangeable.firstMovable,
    stillMovable exchangeable.secondMovable,
    fun within => exchangeable.notAbove (exchanged.within_before wellFormed within),
    fun within =>
      exchangeable.notBelow (exchanged.symm.within_before wellFormed within)⟩

theorem swap_trades (first second : NodeHash) :
    Edit.Exact (tree.Exchangeable first second) True True
      (fun _ after => tree.Trades after first second) tree
      (swap first second tree) := by
  have upheld := wellFormed.swap_upholds first second
  refine (wellFormed.swap_exchanges first second).strengthen ?_
  rintro _ after swapped exchangeable ⟨idle, firstSlot, secondSlot, exchanged⟩
  rw [swapped] at upheld
  have again := wellFormed.exchangeable_again exchangeable exchanged
  obtain ⟨_, final, undone, _, _, _, back⟩ :=
    (upheld.swap_exchanges first second).exists_ok again trivial trivial
  refine
    { idle
      exchanged := ⟨firstSlot, secondSlot, exchanged,
        exchanged.slotOf_first wellFormed upheld⟩
      firstKept := exchanged.cloneSubtree_first wellFormed upheld
        exchangeable.notAbove
      secondKept := exchanged.symm.cloneSubtree_first wellFormed upheld
        fun within => (exchangeable.notBelow within).symm
      undone := ⟨final, undone, fun hash => ⟨?_, ?_⟩⟩ }
  · have twice : ∀ child, Equiv.swap first second (Equiv.swap first second child) =
        child := Equiv.swap_apply_self first second
    rw [back.childrenOf_eq, exchanged.childrenOf_eq, List.map_map]
    exact (List.map_congr_left fun child _ => twice child).trans (List.map_id _)
  · rw [back.parentOf_eq, exchanged.parentOf_eq, Equiv.swap_apply_self]

end WellFormed

end Tree

end BehaviorTree
