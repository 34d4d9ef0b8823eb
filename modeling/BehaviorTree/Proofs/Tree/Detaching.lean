import BehaviorTree.Proofs.Edit
import BehaviorTree.Proofs.Tree.WellFormed

/-!
# Taking subtrees out

What cloning and unregistering a node of a well-formed tree yield.  The subtree
handed out is proper, that is without a Root and within the arities of its
kinds, and exactly the nodes at and below the given one leave the registry.
-/

namespace BehaviorTree

/-- No node of the subtree is a Root, and none has more children than its kind
allows. -/
inductive Subtree.Proper : Subtree → Prop where
  | mk {name : String} {hash : Option NodeHash} {weight : Float}
      {kind : NodeKind} {children : List Subtree} :
      kind.isRoot = false →
      kind.arity.allows children.length = true →
      (∀ child ∈ children, Subtree.Proper child) →
      Subtree.Proper ⟨name, hash, weight, kind, children⟩

namespace Subtree

mutual

theorem proper_of_checkShape (subtree : Subtree)
    (notRoot : subtree.kind.isRoot = false)
    (passed : subtree.checkShape = .ok ()) : subtree.Proper := by
  match subtree with
  | ⟨name, hash, weight, kind, children⟩ =>
      rw [checkShape] at passed
      by_cases allowed : kind.arity.allows children.length = true
      · rw [if_pos allowed] at passed
        exact .mk notRoot allowed (proper_of_checkChildren name children passed)
      · rw [if_neg allowed] at passed
        cases passed

theorem proper_of_checkChildren (parent : String) (children : List Subtree)
    (passed : checkChildren parent children = .ok ()) :
    ∀ child ∈ children, child.Proper := by
  match children with
  | [] => simp
  | child :: rest =>
      rw [checkChildren] at passed
      cases isRoot : child.kind.isRoot with
      | true => simp [isRoot] at passed
      | false =>
          rw [isRoot, if_neg Bool.false_ne_true] at passed
          cases shape : child.checkShape with
          | error refusal => simp [shape] at passed
          | ok value =>
              rw [shape] at passed
              intro other member
              rcases List.mem_cons.mp member with same | member
              · rw [same]
                exact proper_of_checkShape child isRoot shape
              · exact proper_of_checkChildren parent rest passed other member

end

theorem proper_of_check {subtree : Subtree}
    (passed : subtree.check = .ok ()) : subtree.Proper := by
  rw [check] at passed
  cases isRoot : subtree.kind.isRoot with
  | true => simp [isRoot] at passed
  | false =>
      rw [isRoot, if_neg Bool.false_ne_true] at passed
      exact proper_of_checkShape subtree isRoot passed

mutual

theorem checkShape_of_proper (subtree : Subtree) (proper : subtree.Proper) :
    subtree.checkShape = .ok () := by
  match subtree, proper with
  | ⟨name, hash, weight, kind, children⟩, .mk _ allowed childrenProper =>
      rw [checkShape, if_pos allowed]
      exact checkChildren_of_proper name children childrenProper

theorem checkChildren_of_proper (parent : String) (children : List Subtree)
    (proper : ∀ child ∈ children, child.Proper) :
    checkChildren parent children = .ok () := by
  match children with
  | [] => rfl
  | child :: rest =>
      have childProper := proper child List.mem_cons_self
      have notRoot : child.kind.isRoot = false := by
        cases childProper
        assumption
      rw [checkChildren, notRoot, if_neg Bool.false_ne_true,
        checkShape_of_proper child childProper]
      exact checkChildren_of_proper parent rest fun other member =>
        proper other (List.mem_cons_of_mem _ member)

end

theorem check_eq_ok_iff {subtree : Subtree} :
    subtree.check = .ok () ↔ subtree.Proper := by
  refine ⟨proper_of_check, fun proper => ?_⟩
  have notRoot : subtree.kind.isRoot = false := by
    cases proper
    assumption
  rw [check, notRoot, if_neg Bool.false_ne_true]
  exact checkShape_of_proper subtree proper

end Subtree

namespace Tree

/-- Cloning a node that is not the root succeeds once the depth reaches to the
bottom of the tree, which lies at most as deep as there are nodes. -/
theorem WellFormed.cloneWithin_spec {tree : Tree}
    (wellFormed : tree.WellFormed) {depth level : Nat} {hash : NodeHash}
    {node : Node} (registered : tree.nodes[hash]? = some node)
    (notRoot : hash ≠ tree.root)
    (reached : tree.climb level hash = some tree.root)
    (deepEnough : tree.nodes.size ≤ level + depth) :
    ∃ subtree, tree.cloneWithin depth hash = some subtree ∧ subtree.Proper ∧
      subtree.kind = node.kind ∧
      subtree.children.length = node.children.length := by
  induction depth generalizing hash node level with
  | zero =>
      have := wellFormed.climb_lt_size registered reached
      omega
  | succ depth induction =>
      have childCloned : ∀ child ∈ node.children, ∃ subtree,
          tree.cloneWithin depth child = some subtree ∧ subtree.Proper := by
        intro child member
        have above := (wellFormed.mem_children_iff registered).mp member
        obtain ⟨childNode, childRegistered, _⟩ := registered_of_parentOf above
        have childReached : tree.climb (level + 1) child = some tree.root := by
          rw [climb, above, Option.bind_some, reached]
        obtain ⟨subtree, cloned, proper, _⟩ :=
          induction childRegistered (wellFormed.ne_root_of_parentOf above)
            childReached (by omega)
        exact ⟨subtree, cloned, proper⟩
      have length : (node.children.filterMap (tree.cloneWithin depth)).length =
          node.children.length := by
        rw [List.filterMap_length_eq_length]
        intro child member
        obtain ⟨subtree, cloned, _⟩ := childCloned child member
        simp [cloned]
      refine ⟨_, by rw [cloneWithin, registered], .mk ?_ ?_ ?_, rfl, length⟩
      · rw [← Bool.not_eq_true, wellFormed.isRoot_iff registered]
        exact notRoot
      · rw [length]
        exact wellFormed.fitting registered
      · intro subtree member
        obtain ⟨child, childMember, cloned⟩ := List.mem_filterMap.mp member
        obtain ⟨found, foundCloned, proper⟩ := childCloned child childMember
        rw [cloned] at foundCloned
        cases foundCloned
        exact proper

theorem WellFormed.cloneSubtree_spec {tree : Tree}
    (wellFormed : tree.WellFormed) {hash : NodeHash} {node : Node}
    (registered : tree.nodes[hash]? = some node)
    (notRoot : hash ≠ tree.root) :
    ∃ subtree, tree.cloneSubtree hash = some subtree ∧ subtree.Proper ∧
      subtree.kind = node.kind ∧
      subtree.children.length = node.children.length := by
  obtain ⟨level, reached⟩ := (wellFormed.rooted registered).exists_climb
  exact wellFormed.cloneWithin_spec registered notRoot reached
    (Nat.le_add_left _ _)

/-- `after` is `before` without the nodes at and below the given ones. -/
structure Cleared (tree : Tree) (tops : List NodeHash)
    (before after : Registry) : Prop where
  gone : ∀ top ∈ tops, ∀ {hash : NodeHash},
    tree.Within top hash → after[hash]? = none
  kept : ∀ {hash : NodeHash}, (∀ top ∈ tops, ¬ tree.Within top hash) →
    after[hash]? = before[hash]?

theorem nodes_erase {nodes : Registry} {hash other : NodeHash}
    (different : other ≠ hash) : (nodes.erase hash)[other]? = nodes[other]? := by
  simp [Std.ExtTreeMap.getElem?_erase, Std.LawfulEqCmp.compare_eq_iff_eq,
    Ne.symm different]

theorem WellFormed.within_cases {tree : Tree} (wellFormed : tree.WellFormed)
    {top hash : NodeHash} {node : Node}
    (registered : tree.nodes[top]? = some node)
    (within : tree.Within top hash) :
    hash = top ∨ ∃ child ∈ node.children, tree.Within child hash := by
  induction within with
  | top => exact .inl rfl
  | @step hash parent above _ induction =>
      rcases induction with rfl | ⟨child, member, below⟩
      · exact .inr ⟨hash, (wellFormed.mem_children_iff registered).mpr above,
          .top⟩
      · exact .inr ⟨child, member, .step above below⟩

/-- The subtrees of two children of one node have no node in common. -/
theorem WellFormed.siblings_apart {tree : Tree} (wellFormed : tree.WellFormed)
    {parent first second hash : NodeHash}
    (firstAbove : tree.parentOf first = some parent)
    (secondAbove : tree.parentOf second = some parent)
    (belowFirst : tree.Within first hash)
    (belowSecond : tree.Within second hash) : first = second := by
  have separate : ∀ {left right : NodeHash},
      tree.parentOf left = some parent → tree.parentOf right = some parent →
      tree.Within left right → left = right := by
    intro left right leftAbove rightAbove within
    cases within with
    | top => rfl
    | step above within =>
        rw [rightAbove] at above
        cases above
        exact (wellFormed.not_within_child leftAbove within).elim
  rcases belowFirst.comparable belowSecond with within | within
  · exact separate firstAbove secondAbove within
  · exact (separate secondAbove firstAbove within).symm

/-- The nodes at and below the given one are registered as in the tree. -/
def Present (tree : Tree) (hash : NodeHash) (nodes : Registry) : Prop :=
  ∀ other, tree.Within hash other → nodes[other]? = tree.nodes[other]?

/-- Taking the node out goes down to the bottom of the tree: what is handed out
is what cloning yields, and the nodes at and below it are gone. -/
def Takes (tree : Tree) (depth : Nat) (hash : NodeHash) : Prop :=
  ∀ nodes, tree.Present hash nodes →
    ∃ subtree remaining, tree.cloneWithin depth hash = some subtree ∧
      takeWithin depth hash nodes = some (subtree, remaining) ∧
      tree.Cleared [hash] nodes remaining

namespace Cleared

variable {tree : Tree} {hash : NodeHash} {before middle after : Registry}

theorem of_single
    (gone : ∀ {other : NodeHash}, tree.Within hash other → after[other]? = none)
    (kept : ∀ {other : NodeHash}, ¬ tree.Within hash other →
      after[other]? = before[other]?) : tree.Cleared [hash] before after where
  gone := by
    intro top member other within
    exact gone (List.mem_singleton.mp member ▸ within)
  kept outside := kept (outside hash (List.mem_singleton.mpr rfl))

theorem gone_single (cleared : tree.Cleared [hash] before after)
    {other : NodeHash} (within : tree.Within hash other) :
    after[other]? = none :=
  cleared.gone hash (List.mem_singleton.mpr rfl) within

theorem kept_single (cleared : tree.Cleared [hash] before after)
    {other : NodeHash} (outside : ¬ tree.Within hash other) :
    after[other]? = before[other]? := by
  apply cleared.kept
  intro top member
  rwa [List.mem_singleton.mp member]

theorem cons {rest : List NodeHash} (first : tree.Cleared [hash] before middle)
    (others : tree.Cleared rest middle after) :
    tree.Cleared (hash :: rest) before after := by
  constructor
  · intro top member other within
    by_cases inRest : ∃ sibling ∈ rest, tree.Within sibling other
    · obtain ⟨sibling, siblingMember, siblingWithin⟩ := inRest
      exact others.gone sibling siblingMember siblingWithin
    · rw [others.kept fun sibling siblingMember siblingWithin =>
        inRest ⟨sibling, siblingMember, siblingWithin⟩]
      rcases List.mem_cons.mp member with rfl | member
      · exact first.gone_single within
      · exact (inRest ⟨top, member, within⟩).elim
  · intro other outside
    rw [others.kept fun sibling member =>
      outside sibling (List.mem_cons_of_mem _ member)]
    exact first.kept_single (outside hash List.mem_cons_self)

end Cleared

namespace WellFormed

variable {tree : Tree} (wellFormed : tree.WellFormed)
include wellFormed

theorem present_of_cleared {parent child sibling : NodeHash}
    {before after : Registry} (cleared : tree.Cleared [child] before after)
    (childAbove : tree.parentOf child = some parent)
    (siblingAbove : tree.parentOf sibling = some parent)
    (different : child ≠ sibling) (present : tree.Present sibling before) :
    tree.Present sibling after := by
  intro other within
  rw [cleared.kept_single]
  · exact present other within
  · intro belowChild
    exact different
      (wellFormed.siblings_apart childAbove siblingAbove belowChild within)

theorem takeEach_spec {depth : Nat} {parent : NodeHash}
    {children : List NodeHash} {nodes : Registry} (distinct : children.Nodup)
    (above : ∀ child ∈ children, tree.parentOf child = some parent)
    (takes : ∀ child ∈ children, tree.Takes depth child)
    (present : ∀ child ∈ children, tree.Present child nodes) :
    ∃ remaining,
      takeEach (takeWithin depth) children nodes =
        (children.filterMap (tree.cloneWithin depth), remaining) ∧
      tree.Cleared children nodes remaining := by
  induction children generalizing nodes with
  | nil => exact ⟨nodes, rfl, by simp, fun _ => rfl⟩
  | cons child rest induction =>
      obtain ⟨childFresh, restDistinct⟩ := List.nodup_cons.mp distinct
      rw [List.forall_mem_cons] at above takes present
      obtain ⟨subtree, middle, cloned, taken, cleared⟩ :=
        takes.1 nodes present.1
      have stillPresent : ∀ sibling ∈ rest, tree.Present sibling middle := by
        intro sibling member
        exact wellFormed.present_of_cleared cleared above.1
          (above.2 sibling member) (fun same => childFresh (same ▸ member))
          (present.2 sibling member)
      obtain ⟨remaining, restTaken, restCleared⟩ :=
        induction restDistinct above.2 takes.2 stillPresent
      refine ⟨remaining, ?_, cleared.cons restCleared⟩
      simp [takeEach, taken, restTaken, cloned]

variable {hash : NodeHash} {node : Node} {nodes remaining : Registry}
  (registered : tree.nodes[hash]? = some node)
include registered

theorem present_child (present : tree.Present hash nodes) {child : NodeHash}
    (member : child ∈ node.children) :
    tree.Present child (nodes.erase hash) := by
  intro other within
  have above := (wellFormed.mem_children_iff registered).mp member
  have different : other ≠ hash := by
    intro same
    subst same
    exact wellFormed.not_within_child above within
  rw [nodes_erase different]
  exact present other ((Within.child above rfl).trans within)

/-- Erasing a node and clearing its children clears the node. -/
theorem cleared_of_children
    (cleared : tree.Cleared node.children (nodes.erase hash) remaining) :
    tree.Cleared [hash] nodes remaining := by
  apply Cleared.of_single
  · intro other within
    by_cases inChildren : ∃ child ∈ node.children, tree.Within child other
    · obtain ⟨child, childMember, below⟩ := inChildren
      exact cleared.gone child childMember below
    · rcases wellFormed.within_cases registered within with rfl | below
      · rw [cleared.kept fun child childMember below =>
          inChildren ⟨child, childMember, below⟩]
        exact Std.ExtTreeMap.getElem?_erase_self
      · exact (inChildren below).elim
  · intro other outside
    have different : other ≠ hash := by
      intro same
      subst same
      exact outside .top
    rw [cleared.kept, nodes_erase different]
    intro child member below
    have above := (wellFormed.mem_children_iff registered).mp member
    exact outside ((Within.child above rfl).trans below)

theorem takeWithin_spec {depth level : Nat}
    (reached : tree.climb level hash = some tree.root)
    (deepEnough : tree.nodes.size ≤ level + depth) :
    tree.Takes depth hash := by
  induction depth generalizing hash node level with
  | zero =>
      have := wellFormed.climb_lt_size registered reached
      omega
  | succ depth induction =>
      intro nodes present
      have takes : ∀ child ∈ node.children, tree.Takes depth child := by
        intro child member
        have above := (wellFormed.mem_children_iff registered).mp member
        obtain ⟨childNode, childRegistered, _⟩ := registered_of_parentOf above
        have childReached : tree.climb (level + 1) child = some tree.root := by
          rw [climb, above, Option.bind_some, reached]
        exact induction childRegistered childReached (by omega)
      obtain ⟨remaining, taken, cleared⟩ := wellFormed.takeEach_spec
        (wellFormed.children_nodup registered)
        (fun child => (wellFormed.mem_children_iff registered).mp) takes
        fun child => wellFormed.present_child registered present
      refine ⟨_, remaining, by rw [cloneWithin, registered], ?_,
        wellFormed.cleared_of_children registered cleared⟩
      have nodesRegistered : nodes[hash]? = some node := by
        rw [present hash .top, registered]
      simp [takeWithin, nodesRegistered, taken]

end WellFormed

theorem of_find {tree : Tree} {hash : NodeHash} {node : Node}
    (found : tree.find hash = .ok node) : tree.nodes[hash]? = some node := by
  rw [find] at found
  cases registered : tree.nodes[hash]? with
  | none => simp [registered] at found
  | some other => simpa [registered] using found

/-- The slot of a node is where its parent lists it. -/
theorem of_slotOf {tree : Tree} {hash : NodeHash} {slot : Slot}
    (found : tree.slotOf hash = .ok slot) :
    tree.parentOf hash = some slot.parent ∧
      ∃ parentNode, tree.nodes[slot.parent]? = some parentNode ∧
        parentNode.children[slot.index]? = some hash := by
  rw [slotOf] at found
  cases lookup : tree.find hash with
  | error refusal => simp [lookup] at found
  | ok node =>
      have registered := of_find lookup
      cases above : node.parent with
      | none => simp [lookup, above] at found
      | some parent =>
          simp only [lookup, above] at found
          cases position :
              (tree.childrenOf parent).findIdx? (· = hash) with
          | none => simp [position] at found
          | some index =>
              simp only [position, Except.ok.injEq] at found
              subst found
              obtain ⟨bound, listed, _⟩ :=
                List.findIdx?_eq_some_iff_getElem.mp position
              have present : (tree.childrenOf parent)[index]? = some hash := by
                simpa using List.getElem?_eq_some_iff.mpr
                  ⟨bound, by simpa using listed⟩
              refine ⟨by rw [parentOf_eq registered, above], ?_⟩
              cases parentRegistered : tree.nodes[parent]? with
              | none => simp [childrenOf, parentRegistered] at present
              | some parentNode =>
                  rw [childrenOf_eq parentRegistered] at present
                  exact ⟨parentNode, rfl, present⟩

theorem WellFormed.exists_slotOf {tree : Tree} (wellFormed : tree.WellFormed)
    {hash parent : NodeHash} (above : tree.parentOf hash = some parent) :
    ∃ index, tree.slotOf hash = .ok ⟨parent, index⟩ := by
  obtain ⟨node, registered, parentIs⟩ := registered_of_parentOf above
  obtain ⟨parentNode, parentRegistered, _⟩ :=
    wellFormed.listed_of_parentOf above
  have member := (wellFormed.mem_children_iff parentRegistered).mpr above
  cases position : (tree.childrenOf parent).findIdx? (· = hash) with
  | none =>
      rw [childrenOf_eq parentRegistered, List.findIdx?_eq_none_iff] at position
      simpa using position hash member
  | some index =>
      exact ⟨index, by simp [slotOf, find, registered, parentIs, position]⟩

/-- A node has just the slot where its parent lists it. -/
theorem WellFormed.slotOf_eq_ok_iff {tree : Tree} (wellFormed : tree.WellFormed)
    {hash : NodeHash} {slot : Slot} :
    tree.slotOf hash = .ok slot ↔ tree.parentOf hash = some slot.parent ∧
      (tree.childrenOf slot.parent)[slot.index]? = some hash := by
  constructor
  · intro found
    obtain ⟨above, parentNode, registered, listed⟩ := of_slotOf found
    exact ⟨above, by rw [childrenOf_eq registered, listed]⟩
  · rintro ⟨above, listed⟩
    obtain ⟨index, found⟩ := wellFormed.exists_slotOf above
    obtain ⟨_, parentNode, registered, foundListed⟩ := of_slotOf found
    rw [childrenOf_eq registered] at listed
    obtain ⟨bound, _⟩ := List.getElem?_eq_some_iff.mp listed
    have same : slot.index = index :=
      (List.getElem?_inj bound (wellFormed.children_nodup registered)).mp
        (listed.trans foundListed.symm)
    rw [found, ← same]

theorem WellFormed.ne_root_of_slotOf {tree : Tree}
    (wellFormed : tree.WellFormed) {hash : NodeHash} {slot : Slot}
    (found : tree.slotOf hash = .ok slot) : hash ≠ tree.root :=
  wellFormed.ne_root_of_parentOf (of_slotOf found).1

/-- Unregistering a node of a well-formed tree, whether or not its parent was
told before. -/
theorem WellFormed.unregister_spec {tree : Tree}
    (wellFormed : tree.WellFormed) (current : Tree) {hash : NodeHash} {node : Node}
    (registered : tree.nodes[hash]? = some node)
    (notRoot : hash ≠ tree.root)
    (size : current.nodes.size = tree.nodes.size)
    (present : tree.Present hash current.nodes) :
    ∃ subtree remaining, tree.cloneSubtree hash = some subtree ∧
      subtree.Proper ∧ subtree.kind = node.kind ∧
      subtree.children.length = node.children.length ∧
      unregister hash current =
        .ok subtree { current with nodes := remaining } ∧
      tree.Cleared [hash] current.nodes remaining := by
  obtain ⟨level, reached⟩ := (wellFormed.rooted registered).exists_climb
  obtain ⟨subtree, remaining, cloned, taken, cleared⟩ :=
    wellFormed.takeWithin_spec registered reached (Nat.le_add_left _ _)
      current.nodes present
  obtain ⟨found, foundCloned, proper, kind, length⟩ :=
    wellFormed.cloneSubtree_spec registered notRoot
  have same : found = subtree := by
    rw [cloneSubtree, cloned] at foundCloned
    exact (Option.some.inj foundCloned).symm
  subst same
  refine ⟨found, remaining, foundCloned, proper, kind, length, ?_, cleared⟩
  rw [← size] at taken
  rw [unregister, Edit.get_bind, taken]
  rfl

/-- Detaching a node that has a slot goes through.  Its parent no longer lists
it, and the nodes at and below it are gone. -/
theorem WellFormed.detach_spec {tree : Tree} (wellFormed : tree.WellFormed)
    {hash : NodeHash} {node : Node} {slot : Slot}
    (registered : tree.nodes[hash]? = some node)
    (found : tree.slotOf hash = .ok slot) :
    ∃ subtree remaining, tree.cloneSubtree hash = some subtree ∧
      subtree.Proper ∧ subtree.kind = node.kind ∧
      subtree.children.length = node.children.length ∧
      detach hash tree = .ok subtree { tree with nodes := remaining } ∧
      tree.Cleared [hash]
        (tree.updateNode slot.parent (·.removeChild slot.index)).nodes
        remaining := by
  have above := (of_slotOf found).1
  have present : tree.Present hash
      (tree.updateNode slot.parent (·.removeChild slot.index)).nodes := by
    intro other within
    rw [nodes_updateNode, if_neg]
    intro same
    subst same
    exact wellFormed.not_within_child above within
  obtain ⟨subtree, remaining, cloned, proper, kind, length, taken, cleared⟩ :=
    wellFormed.unregister_spec
      (tree.updateNode slot.parent (·.removeChild slot.index))
      registered (wellFormed.ne_root_of_slotOf found)
      (by simp [updateNode, Std.ExtTreeMap.size_modify]) present
  refine ⟨subtree, remaining, cloned, proper, kind, length, ?_, cleared⟩
  unfold detach
  rw [Edit.bind_apply]
  change (Edit.require (tree.slotOf hash) >>= _) tree = _
  rw [found]
  exact taken

end Tree

end BehaviorTree
