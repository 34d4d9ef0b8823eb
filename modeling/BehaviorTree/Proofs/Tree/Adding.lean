import BehaviorTree.Proofs.Tree.Scoping
import BehaviorTree.Proofs.Tree.Allotting

/-!
# Adding nodes

Adding a node goes through just under the conditions below, unless the tree runs
out of hashes or the target of indices, and then does just this: the node and what
is below it stand at the given place, the target keeps its name, its weight, its
parent and the order of its other children, and every other node is as before.  A
node that moves leaves its old place.
-/

namespace BehaviorTree

namespace Edit

variable {σ β γ : Type}

/-- The edit is refused just if it is not `allowed`, and changes nothing then.
It leads to `post` otherwise; only if not all hashes are `kept` may it run out of
them, and only if there is no `room` may it run out of indices. -/
def Exact (allowed kept room : Prop) (post : β → σ → Prop) (before : σ) :
    EStateM.Result EditError σ β → Prop
  | .ok value after => allowed ∧ post value after
  | .error (.refused _) after => ¬ allowed ∧ after = before
  | .error (.exhausted (.hashes _)) _ => allowed ∧ ¬ kept
  | .error (.exhausted .indices) _ => allowed ∧ ¬ room

/-- The edit is neither refused nor out of anything. -/
def goesThrough (edit : Edit σ β) (state : σ) : Bool :=
  match edit state with
  | .ok _ _ => true
  | .error _ _ => false

theorem goesThrough_iff {edit : Edit σ β} {state : σ} :
    edit.goesThrough state = true ↔
      ∃ value after, edit state = .ok value after := by
  unfold goesThrough
  cases edit state with
  | ok value after => exact ⟨fun _ => ⟨value, after, rfl⟩, fun _ => rfl⟩
  | error failure after => exact ⟨nofun, nofun⟩

namespace Exact

variable {allowed kept room : Prop} {post : β → σ → Prop} {state : σ}

theorem strengthen {final : β → σ → Prop} {result : EStateM.Result EditError σ β}
    (isExact : Exact allowed kept room post state result)
    (leads : ∀ value after, result = .ok value after → allowed →
      post value after → final value after) :
    Exact allowed kept room final state result := by
  cases result with
  | ok value after => exact ⟨isExact.1, leads value after rfl isExact.1 isExact.2⟩
  | error failure after => rcases failure with cause | failure | _ <;> exact isExact

theorem mono {final : β → σ → Prop} {result : EStateM.Result EditError σ β}
    (isExact : Exact allowed kept room post state result)
    (weaken : ∀ value after, post value after → final value after) :
    Exact allowed kept room final state result :=
  isExact.strengthen fun value after _ _ => weaken value after

theorem of_delivers {enough fits : Prop} {result : EStateM.Result EditError σ β}
    (holds : allowed) (delivers : Delivers enough fits post result)
    (sufficient : kept → enough) (roomy : room → fits) :
    Exact allowed kept room post state result := by
  cases result with
  | ok value after => exact ⟨holds, delivers⟩
  | error failure after =>
      rcases failure with cause | failure | _
      · exact delivers.elim
      · exact ⟨holds, fun keeps => delivers (sufficient keeps)⟩
      · exact ⟨holds, fun spare => delivers (roomy spare)⟩

theorem exists_ok {result : EStateM.Result EditError σ β}
    (isExact : Exact allowed kept room post state result) (holds : allowed)
    (keeps : kept) (spare : room) :
    ∃ value after, result = .ok value after ∧ post value after := by
  cases result with
  | ok value after => exact ⟨value, after, rfl, isExact.2⟩
  | error failure after =>
      rcases failure with cause | failure | _
      · exact (isExact.1 holds).elim
      · exact (isExact.2 keeps).elim
      · exact (isExact.2 spare).elim

theorem upholds {result : EStateM.Result EditError σ β}
    (isExact : Exact allowed kept room post state result) :
    Upholds state post result := by
  cases result with
  | ok value after => exact isExact.2
  | error failure after =>
      cases failure with
      | refused cause => exact isExact.2
      | exhausted cause => trivial

theorem after_get {next : σ → Edit σ β}
    (rest : Exact allowed kept room post state (next state state)) :
    Exact allowed kept room post state ((get >>= next) state) :=
  rest

theorem after_require {check : Except TopologyError γ} {next : γ → Edit σ β}
    (refuses : ∀ cause, check = .error cause → ¬ allowed)
    (rest : ∀ value, check = .ok value →
      Exact allowed kept room post state (next value state)) :
    Exact allowed kept room post state ((require check >>= next) state) := by
  cases checked : check with
  | ok value => exact rest value checked
  | error cause => exact ⟨refuses cause checked, rfl⟩

theorem after_guard {condition : Prop} [Decidable condition]
    {cause : TopologyError} {next : γ → Edit σ β} {rest : Edit σ β}
    (refuses : condition → ¬ allowed)
    (passed : ¬ condition → Exact allowed kept room post state (rest state)) :
    Exact allowed kept room post state
      ((if condition then refuse cause >>= next else rest) state) := by
  by_cases holds : condition
  · rw [if_pos holds]
    exact ⟨refuses holds, rfl⟩
  · rw [if_neg holds]
    exact passed holds

end Exact

end Edit

/-- The kind without the designation of a child. -/
def NodeKind.undesignated (kind : NodeKind) : NodeKind :=
  kind.mapPrimary fun _ => none

namespace NodeKind

theorem undesignated_mapPrimary (kind : NodeKind)
    (change : UInt64 → Option UInt64) :
    (kind.mapPrimary change).undesignated = kind.undesignated := by
  cases kind with
  | parallel spec => simp [undesignated, mapPrimary]
  | _ => rfl

/-- The designated index is the largest one. -/
def AtLimit (kind : NodeKind) : Prop :=
  ∃ primary, kind.primaryChild = some primary ∧ primary.toNat + 1 = UInt64.size

theorem overflowsAt_eq_false {kind : NodeKind} (below : ¬ kind.AtLimit) (index : Nat) :
    kind.overflowsAt index = false := by
  rw [overflowsAt, Option.any_eq_false]
  intro primary designated
  refine decide_eq_false ?_
  rintro ⟨_, largest⟩
  exact below ⟨primary, designated, largest⟩

theorem atLimit_of_childRemoved {kind : NodeKind} {index : Nat}
    (reached : (kind.childRemoved index).AtLimit) : kind.AtLimit := by
  obtain ⟨primary, designated, largest⟩ := reached
  rw [childRemoved, primaryChild_mapPrimary] at designated
  obtain ⟨old, isOld, moved⟩ := Option.bind_eq_some_iff.mp designated
  refine ⟨old, isOld, ?_⟩
  split at moved
  · cases moved
  split at moved
  · next behind =>
      have bound := old.toNat_lt_size
      obtain rfl := Option.some.inj moved
      rw [toNat_sub_one behind] at largest
      omega
  · rw [Option.some.inj moved]
    exact largest

end NodeKind

/-- What a node keeps while children come and go. -/
structure Node.Stays (old now : Node) : Prop where
  hash : now.hash = old.hash
  name : now.name = old.name
  weight : now.weight = old.weight
  parent : now.parent = old.parent
  kind : now.kind.undesignated = old.kind.undesignated

namespace Node.Stays

theorem refl (node : Node) : node.Stays node := ⟨rfl, rfl, rfl, rfl, rfl⟩

theorem trans {first second third : Node} (before : first.Stays second)
    (after : second.Stays third) : first.Stays third where
  hash := after.hash.trans before.hash
  name := after.name.trans before.name
  weight := after.weight.trans before.weight
  parent := after.parent.trans before.parent
  kind := after.kind.trans before.kind

theorem arity {old now : Node} (stays : old.Stays now) : now.arity = old.arity := by
  have same := congrArg NodeKind.arity stays.kind
  rwa [NodeKind.undesignated, NodeKind.undesignated, NodeKind.arity_mapPrimary,
    NodeKind.arity_mapPrimary] at same

theorem withChild (node : Node) (index : Nat) (child : NodeHash) :
    node.Stays (node.withChild index child) :=
  ⟨rfl, rfl, rfl, rfl, node.kind.undesignated_mapPrimary _⟩

theorem removeChild (node : Node) (index : Nat) :
    node.Stays (node.removeChild index) :=
  ⟨rfl, rfl, rfl, rfl, node.kind.undesignated_mapPrimary _⟩

theorem hostChild (node : Node) (index : Nat) (host : NodeHash) :
    node.Stays (node.hostChild index host) :=
  ⟨rfl, rfl, rfl, rfl, rfl⟩

end Node.Stays

namespace Tree

/-- The target has room for one more child.  The child that leaves does not
count. -/
def Hosts (tree : Tree) (target : NodeHash) (leaving : Option NodeHash) : Prop :=
  ∃ node, tree.nodes[target]? = some node ∧ node.arity ≠ .leaf ∧
    (node.arity = .single → ∀ child ∈ node.children, leaving = some child)

/-- The node is registered, and not the root. -/
def Movable (tree : Tree) (hash : NodeHash) : Prop :=
  (∃ node, tree.nodes[hash]? = some node) ∧ hash ≠ tree.root

/-- The conditions under which a node may be added. -/
def Accepts (tree : Tree) (target : NodeHash) (copying : Bool) :
    NodeOrigin → Prop
  | .detached subtree => subtree.Proper ∧ tree.Hosts target none
  | .resident hash =>
    tree.Movable hash ∧
      if copying then tree.Hosts target none
      else ¬ tree.Within hash target ∧ tree.Hosts target (some hash)

/-- The target does not designate the largest index. -/
def HasIndices (tree : Tree) (target : NodeHash) : Prop :=
  ∀ node, tree.nodes[target]? = some node → ¬ node.kind.AtLimit

/-- The node that leaves its place to be added. -/
def leaving (copying : Bool) : NodeOrigin → Option NodeHash
  | .detached _ => none
  | .resident hash => if copying then none else some hash

/-- The subtree that is added. -/
def incoming (tree : Tree) : NodeOrigin → Option Subtree
  | .detached subtree => some subtree
  | .resident hash => tree.cloneSubtree hash

theorem checkTarget_eq_ok_iff {tree : Tree} {target : NodeHash}
    {leaving : Option NodeHash} :
    tree.checkTarget target leaving = .ok () ↔ tree.Hosts target leaving := by
  rw [checkTarget, find, Hosts]
  cases registered : tree.nodes[target]? with
  | none => simp
  | some node =>
      have noOthers : (node.children.filter
            fun child => some child ≠ leaving) = [] ↔
          ∀ child ∈ node.children, leaving = some child := by
        simp only [List.filter_eq_nil_iff, ne_eq, decide_not, Bool.not_eq_true',
          decide_eq_false_iff_not, Decidable.not_not]
        exact forall₂_congr fun _ _ => eq_comm
      simp only [Option.some.injEq, exists_eq_left', checkHost, Node.arity]
      cases node.kind.arity with
      | leaf => simp
      | single =>
          rw [← noOthers]
          cases node.children.filter fun child => some child ≠ leaving <;> simp
      | many => simp

/-- The children that stay when a node leaves. -/
def staying (leaving : Option NodeHash) (children : List NodeHash) :
    List NodeHash :=
  leaving.elim children children.erase

/-- The target has room once the node that leaves is gone. -/
theorem Hosts.fits {tree : Tree} {target : NodeHash} {leaving : Option NodeHash}
    (hosts : tree.Hosts target leaving) {node : Node}
    (registered : tree.nodes[target]? = some node)
    (distinct : node.children.Nodup) :
    node.arity.allows ((staying leaving node.children).length + 1) = true := by
  obtain ⟨found, foundRegistered, notLeaf, room⟩ := hosts
  rw [registered, Option.some.injEq] at foundRegistered
  subst foundRegistered
  cases arity : node.arity with
  | leaf => exact (notLeaf arity).elim
  | single =>
      have empty : staying leaving node.children = [] := by
        rw [List.eq_nil_iff_forall_not_mem]
        intro child member
        cases leaving with
        | none => cases room arity child member
        | some hash =>
            obtain ⟨different, listed⟩ := distinct.mem_erase_iff.mp member
            exact different (Option.some.inj (room arity child listed)).symm
      rw [empty]
      rfl
  | many => rfl

namespace WellFormed

variable {tree : Tree} (wellFormed : tree.WellFormed)
include wellFormed

theorem movable_iff {hash : NodeHash} :
    tree.Movable hash ↔ ∃ node, tree.nodes[hash]? = some node ∧
      node.kind.isRoot = false := by
  constructor
  · rintro ⟨⟨node, registered⟩, notRoot⟩
    refine ⟨node, registered, ?_⟩
    rw [← Bool.not_eq_true, wellFormed.isRoot_iff registered]
    exact notRoot
  · rintro ⟨node, registered, notRoot⟩
    refine ⟨⟨node, registered⟩, ?_⟩
    rw [Ne, ← wellFormed.isRoot_iff registered, notRoot]
    exact Bool.false_ne_true

theorem not_movable_of_findMovable {hash : NodeHash} {cause : TopologyError}
    (refused : tree.findMovable hash = .error cause) : ¬ tree.Movable hash := by
  rw [wellFormed.movable_iff]
  rintro ⟨node, registered, notRoot⟩
  simp [findMovable, find, registered, notRoot] at refused

theorem findMovable_eq_ok {hash : NodeHash} (movable : tree.Movable hash) {node : Node}
    (registered : tree.nodes[hash]? = some node) :
    tree.findMovable hash = .ok node := by
  obtain ⟨found, foundRegistered, notRoot⟩ := wellFormed.movable_iff.mp movable
  rw [registered, Option.some.injEq] at foundRegistered
  subst foundRegistered
  simp [findMovable, find, registered, notRoot]

end WellFormed

theorem Movable.of_slotOf {tree : Tree} (wellFormed : tree.WellFormed)
    {hash : NodeHash} {slot : Slot} (found : tree.slotOf hash = .ok slot) :
    tree.Movable hash := by
  obtain ⟨node, registered, _⟩ :=
    registered_of_parentOf (Tree.of_slotOf found).1
  exact ⟨⟨node, registered⟩, wellFormed.ne_root_of_slotOf found⟩

theorem WellFormed.exists_slotOf_of_movable {tree : Tree}
    (wellFormed : tree.WellFormed) {hash : NodeHash}
    (movable : tree.Movable hash) : ∃ slot, tree.slotOf hash = .ok slot := by
  obtain ⟨node, registered, notRoot⟩ := wellFormed.movable_iff.mp movable
  exact wellFormed.exists_slotOf_of_notRoot registered notRoot

theorem WellFormed.not_movable_of_slotOf {tree : Tree}
    (wellFormed : tree.WellFormed) {hash : NodeHash} {cause : TopologyError}
    (refused : tree.slotOf hash = .error cause) : ¬ tree.Movable hash := by
  intro movable
  obtain ⟨slot, found⟩ := wellFormed.exists_slotOf_of_movable movable
  rw [found] at refused
  cases refused

theorem WellFormed.movable_of_isOk {tree : Tree} (wellFormed : tree.WellFormed)
    {hash : NodeHash} (hasSlot : (tree.slotOf hash).isOk = true) :
    tree.Movable hash := by
  cases found : tree.slotOf hash with
  | ok slot => exact .of_slotOf wellFormed found
  | error cause =>
      rw [found] at hasSlot
      cases hasSlot

/-- `after` is `tree` without the given node and everything below it. -/
structure Departed (tree after : Tree) (hash : NodeHash) : Prop where
  gone : ∀ {other : NodeHash}, tree.Within hash other →
    after.nodes[other]? = none
  stays : ∀ {other : NodeHash} {old : Node}, tree.nodes[other]? = some old →
    ¬ tree.Within hash other → ∃ now, after.nodes[other]? = some now ∧
      old.Stays now ∧ now.children = old.children.erase hash
  same : ∀ {other : NodeHash} {old : Node}, tree.nodes[other]? = some old →
    ¬ tree.Within hash other → hash ∉ old.children →
    after.nodes[other]? = some old
  only : ∀ {other : NodeHash} {now : Node}, after.nodes[other]? = some now →
    ∃ old, tree.nodes[other]? = some old

theorem WellFormed.departed_of_pruned {tree after : Tree}
    (wellFormed : tree.WellFormed) {hash : NodeHash} {slot : Slot}
    {parentNode : Node} (pruned : tree.Pruned after hash slot parentNode) :
    tree.Departed after hash where
  gone := pruned.cleared.gone_single
  stays := by
    intro other old registered outside
    have now := pruned.kept outside
    have links := wellFormed.links registered
    by_cases atParent : other = slot.parent
    · subst atParent
      rw [pruned.parentRegistered, Option.some.injEq] at registered
      subst registered
      rw [if_pos rfl] at now
      refine ⟨_, now, .removeChild _ _, ?_⟩
      obtain ⟨bound, isHash⟩ := List.getElem?_eq_some_iff.mp pruned.listed
      rw [← isHash, links.1.erase_getElem slot.index bound]
      rfl
    · rw [if_neg atParent, registered] at now
      refine ⟨old, now, .refl old, (List.erase_of_not_mem ?_).symm⟩
      intro member
      rw [links.2, pruned.above] at member
      exact atParent (Option.some.inj member).symm
  same := by
    intro other old registered outside unlisted
    have notParent : other ≠ slot.parent := by
      rintro rfl
      rw [pruned.parentRegistered, Option.some.injEq] at registered
      exact unlisted (registered ▸ List.mem_of_getElem? pruned.listed)
    rw [pruned.kept outside, if_neg notParent, registered]
  only registered := by
    obtain ⟨old, oldRegistered, _⟩ := pruned.origin registered
    exact ⟨old, oldRegistered⟩

theorem Pruned.hasIndices {tree after : Tree} {hash target : NodeHash} {slot : Slot}
    {parentNode : Node} (pruned : tree.Pruned after hash slot parentNode)
    (outside : ¬ tree.Within hash target) (spare : tree.HasIndices target) :
    after.HasIndices target := by
  intro now found
  rw [pruned.kept outside] at found
  split at found
  · next atParent =>
      subst atParent
      obtain rfl := Option.some.inj found
      exact fun reached => spare parentNode pruned.parentRegistered
        (NodeKind.atLimit_of_childRemoved reached)
  · exact spare now found

theorem WellFormed.detach_pruned {tree : Tree} (wellFormed : tree.WellFormed)
    {hash : NodeHash} (movable : tree.Movable hash) :
    ∃ slot parentNode subtree after, detach hash tree = .ok subtree after ∧
      tree.cloneSubtree hash = some subtree ∧ subtree.Proper ∧
      after.WellFormed ∧ after = { tree with nodes := after.nodes } ∧
      tree.Pruned after hash slot parentNode := by
  obtain ⟨node, registered, notRoot⟩ := wellFormed.movable_iff.mp movable
  obtain ⟨slot, found⟩ := wellFormed.exists_slotOf_of_notRoot registered notRoot
  obtain ⟨subtree, remaining, cloned, proper, _, _, detached, cleared⟩ :=
    wellFormed.detach_spec registered found
  obtain ⟨_, parentNode, parentRegistered, _⟩ := of_slotOf found
  have pruned : tree.Pruned { tree with nodes := remaining } hash slot
      parentNode := ⟨found, parentRegistered, rfl, cleared⟩
  exact ⟨slot, parentNode, subtree, _, detached, cloned, proper,
    pruned.wellFormed_after wellFormed, rfl, pruned⟩

theorem copyNode_eq_ok {tree : Tree} {hash : NodeHash} {subtree : Subtree}
    (cloned : tree.cloneSubtree hash = some subtree) :
    copyNode hash tree = .ok subtree tree := by
  unfold copyNode
  rw [Edit.get_bind, cloned]
  rfl

/-- The node leaves with one above it. -/
def Gone (tree : Tree) (leaving : Option NodeHash) (hash : NodeHash) : Prop :=
  ∃ top, leaving = some top ∧ tree.Within top hash

theorem not_gone_none (tree : Tree) (hash : NodeHash) : ¬ tree.Gone none hash := by
  rintro ⟨_, impossible, _⟩
  cases impossible

theorem gone_some_iff {tree : Tree} {leaving hash : NodeHash} :
    tree.Gone (some leaving) hash ↔ tree.Within leaving hash := by
  constructor
  · rintro ⟨_, same, within⟩
    cases same
    exact within
  · exact fun within => ⟨leaving, rfl, within⟩

/-- `after` is `tree` with the subtree below the target, under the hash that was
returned; a node that was `leaving` came from elsewhere in the tree. -/
structure Added (tree after : Tree) (leaving : Option NodeHash)
    (target : NodeHash) (position : Option Nat) (subtree : Subtree)
    (hash : NodeHash) : Prop where
  placed : after.childrenOf target =
    (staying leaving (tree.childrenOf target)).insertIdx
      (clampPosition position (staying leaving (tree.childrenOf target)).length)
      hash
  once : (after.childrenOf target).count hash = 1
  above : after.parentOf hash = some target
  cloned : ∃ copy, after.cloneSubtree hash = some copy ∧
    copy.unhashed = subtree.unhashed
  stays : ∀ {other : NodeHash} {old : Node}, tree.nodes[other]? = some old →
    ¬ tree.Gone leaving other → ∃ now, after.nodes[other]? = some now ∧
      old.Stays now ∧
      (other ≠ target → now.children = staying leaving old.children)
  same : ∀ {other : NodeHash} {old : Node}, tree.nodes[other]? = some old →
    ¬ tree.Gone leaving other → other ≠ target →
    (∀ top, leaving = some top → top ∉ old.children) →
    after.nodes[other]? = some old
  only : ∀ {other : NodeHash} {now : Node}, after.nodes[other]? = some now →
    (∃ old, tree.nodes[other]? = some old ∧ ¬ tree.Gone leaving other) ∨
      after.Within hash other

namespace WellFormed

variable {tree : Tree} (wellFormed : tree.WellFormed)
include wellFormed

theorem attach_added {subtree : Subtree} (proper : subtree.Proper)
    {target : NodeHash} {targetNode : Node}
    (registered : tree.nodes[target]? = some targetNode)
    (fits : targetNode.arity.allows (targetNode.children.length + 1) = true)
    (position : Option Nat) :
    Edit.Delivers (tree.Affords subtree.hints) (targetNode.HasRoom position)
      (fun hash after => tree.Added after none target position subtree hash)
      (attach subtree target position tree) := by
  unfold attach
  refine ((register_placed subtree tree target).and_completes
    (register_spec subtree proper registered)).bind (fun affords => affords)
    (fun _ => trivial) ?_
  rintro hash middle ⟨⟨placed, hashes, isTop, isPlaced⟩, planted, _⟩
  refine (insertInto_delivers (planted.kept registered) position hash).bind
    (fun _ => trivial) (fun room => room) ?_
  rintro _ _ ⟨_, rfl⟩
  let index := clampPosition position targetNode.children.length
  let after : Tree := middle.updateNode target fun node =>
    node.withChild (clampPosition position node.children.length) hash
  have targetMiddle := planted.kept registered
  have elsewhere : ∀ {other : NodeHash}, other ≠ target →
      after.nodes[other]? = middle.nodes[other]? := by
    intro other different
    simp [after, different]
  have targetNow : after.nodes[target]? =
      some (targetNode.withChild index hash) := by
    simp [after, index, targetMiddle]
  have grafted : tree.Grafted middle after target hash targetNode index :=
    ⟨planted, registered, rfl, targetNow, elsewhere⟩
  have wellFormedAfter : after.WellFormed :=
    grafted.wellFormed_after wellFormed (clampPosition_le position _) fits
  have above : after.parentOf hash = some target := by
    rw [grafted.parentOf_eq]
    exact (planted.top hash (List.mem_singleton.mpr rfl)).2
  refine
    { placed := ?_, once := ?_, above
      cloned := ⟨placed, ?_, isPlaced.unhashed⟩, stays := ?_, same := ?_, only := ?_ }
  · rw [childrenOf_eq targetNow, childrenOf_eq registered]
    rfl
  · rw [childrenOf_eq targetNow]
    exact List.count_eq_one_of_mem (wellFormedAfter.children_nodup targetNow)
      ((wellFormedAfter.mem_children_iff targetNow).mpr above)
  · have stillStands : tree.Stands after target placed := by
      refine isPlaced.stands.mono (fun _ absent => absent) ?_
      intro other node _ absent otherRegistered
      rw [elsewhere, otherRegistered]
      intro here
      simp [here, registered] at absent
    exact stillStands.cloneSubtree_eq wellFormedAfter isTop
  · intro other old oldRegistered _
    have kept := planted.kept oldRegistered
    by_cases here : other = target
    · subst here
      rw [registered, Option.some.injEq] at oldRegistered
      subst oldRegistered
      exact ⟨_, targetNow, .withChild _ _ _, fun different => (different rfl).elim⟩
    · exact ⟨old, by rw [elsewhere here, kept], .refl old, fun _ => rfl⟩
  · intro other old oldRegistered _ different _
    exact (elsewhere different).trans (planted.kept oldRegistered)
  · intro other now nowRegistered
    obtain ⟨node, middleRegistered, _⟩ := grafted.origin nowRegistered
    cases before : tree.nodes[other]? with
    | some old => exact .inl ⟨old, rfl, tree.not_gone_none _⟩
    | none =>
        obtain ⟨top, member, within⟩ := planted.rooted before middleRegistered
        rw [List.mem_singleton] at member
        subst member
        exact .inr (within.transport fun child _ _ _ => grafted.parentOf_eq child)

end WellFormed

/-- A node that left and came in again moved. -/
theorem Departed.added {tree middle after : Tree} {hash target top : NodeHash}
    {position : Option Nat} {subtree : Subtree}
    (departed : tree.Departed middle hash)
    (outside : ¬ tree.Within hash target) {targetNode : Node}
    (registered : tree.nodes[target]? = some targetNode)
    (added : middle.Added after none target position subtree top) :
    tree.Added after (some hash) target position subtree top := by
  obtain ⟨targetNow, targetFound, _, targetChildren⟩ :=
    departed.stays registered outside
  refine { added with placed := ?_, stays := ?_, same := ?_, only := ?_ }
  · have placed := added.placed
    rw [childrenOf_eq targetFound, targetChildren] at placed
    rw [placed, childrenOf_eq registered]
    rfl
  · intro other old oldRegistered notGone
    rw [gone_some_iff] at notGone
    obtain ⟨between, found, first, children⟩ :=
      departed.stays oldRegistered notGone
    obtain ⟨now, nowFound, second, others⟩ := added.stays found (middle.not_gone_none _)
    refine ⟨now, nowFound, first.trans second, fun different => ?_⟩
    rw [others different]
    exact children
  · intro other old oldRegistered notGone different unlisted
    rw [gone_some_iff] at notGone
    exact added.same (departed.same oldRegistered notGone (unlisted hash rfl))
      (middle.not_gone_none _) different nofun
  · intro other now nowRegistered
    rcases added.only nowRegistered with ⟨between, found, _⟩ | within
    · obtain ⟨old, oldRegistered⟩ := departed.only found
      refine .inl ⟨old, oldRegistered, ?_⟩
      rw [gone_some_iff]
      intro within
      simp [departed.gone within] at found
    · exact .inr within

/-- No hash has to be minted for the node: all nodes that come in keep theirs,
which are free once the node has left its old place. -/
def KeepsHashes (tree : Tree) (copying : Bool) (origin : NodeOrigin) : Prop :=
  ∃ subtree, tree.incoming origin = some subtree ∧ subtree.hints.Nodup ∧
    ∀ hint ∈ subtree.hints, ∃ hash, hint = some hash ∧
      hash.isScopedTo tree.id = true ∧
      (tree.nodes[hash]? = none ∨ tree.Gone (leaving copying origin) hash)

theorem KeepsHashes.suits {tree middle : Tree} {copying : Bool}
    {origin : NodeOrigin} {subtree : Subtree}
    (keeps : tree.KeepsHashes copying origin)
    (comes : tree.incoming origin = some subtree) (sameId : middle.id = tree.id)
    (free : ∀ {hash : NodeHash}, tree.nodes[hash]? = none ∨
      tree.Gone (leaving copying origin) hash → middle.nodes[hash]? = none) :
    middle.Suits subtree.hints := by
  obtain ⟨found, foundComes, distinct, all⟩ := keeps
  rw [comes, Option.some.injEq] at foundComes
  subst foundComes
  refine ⟨distinct, fun hint member => ?_⟩
  obtain ⟨hash, same, inScope, absent⟩ := all hint member
  exact ⟨hash, same, by rwa [sameId], free absent⟩

theorem Departed.free {tree middle : Tree} {hash other : NodeHash}
    (departed : tree.Departed middle hash)
    (absent : tree.nodes[other]? = none ∨ tree.Gone (some hash) other) :
    middle.nodes[other]? = none := by
  rcases absent with absent | ⟨_, same, within⟩
  · cases remains : middle.nodes[other]? with
    | none => rfl
    | some now =>
        obtain ⟨old, oldRegistered⟩ := departed.only remains
        simp [absent] at oldRegistered
  · cases same
    exact departed.gone within

namespace WellFormed

variable {tree : Tree} (wellFormed : tree.WellFormed) (target : NodeHash)
  (position : Option Nat)
include wellFormed

theorem attach_exact {allowed kept : Prop} (holds : allowed)
    {subtree : Subtree} (proper : subtree.Proper)
    (hosts : tree.Hosts target none)
    (keeps : kept → tree.Suits subtree.hints) :
    Edit.Exact allowed kept (tree.HasIndices target)
      (fun hash after => tree.Added after none target position subtree hash) tree
      (attach subtree target position tree) := by
  have found := hosts
  obtain ⟨targetNode, registered, _⟩ := found
  have fits := hosts.fits registered (wellFormed.children_nodup registered)
  exact .of_delivers holds (wellFormed.attach_added proper registered fits position)
    (fun isKept => (keeps isKept).affords)
    fun spare => NodeKind.overflowsAt_eq_false (spare targetNode registered) _

omit wellFormed in
theorem not_hosts_of_checkTarget {leaving : Option NodeHash}
    {cause : TopologyError}
    (refused : tree.checkTarget target leaving = .error cause) :
    ¬ tree.Hosts target leaving := by
  intro hosts
  rw [checkTarget_eq_ok_iff.mpr hosts] at refused
  cases refused

theorem add_detached_exact (subtree : Subtree) (copying : Bool) :
    Edit.Exact (tree.Accepts target copying (.detached subtree))
      (tree.KeepsHashes copying (.detached subtree)) (tree.HasIndices target)
      (fun hash after => tree.Added after none target position subtree hash) tree
      (add (.detached subtree) target position copying tree) := by
  unfold add
  refine .after_require ?_ fun _ checked => .after_get (.after_require ?_ ?_)
  · intro cause refused accepts
    rw [Subtree.check_eq_ok_iff.mpr accepts.1] at refused
    cases refused
  · exact fun cause refused accepts =>
      not_hosts_of_checkTarget target refused accepts.2
  · intro _ passed
    have proper := Subtree.check_eq_ok_iff.mp checked
    have hosts := checkTarget_eq_ok_iff.mp passed
    apply wellFormed.attach_exact target position ⟨proper, hosts⟩ proper hosts
    intro keeps
    apply keeps.suits rfl rfl
    rintro hash (absent | ⟨_, impossible, _⟩)
    · exact absent
    · cases impossible

theorem add_copy_exact (hash : NodeHash) :
    Edit.Exact (tree.Accepts target true (.resident hash))
      (tree.KeepsHashes true (.resident hash)) (tree.HasIndices target)
      (fun top after => ∃ subtree, tree.cloneSubtree hash = some subtree ∧
        tree.Added after none target position subtree top) tree
      (add (.resident hash) target position true tree) := by
  unfold add
  refine .after_get (.after_require ?_ fun node found => ?_)
  · exact fun cause refused accepts =>
      wellFormed.not_movable_of_findMovable refused accepts.1
  refine .after_get (.after_require ?_ fun _ passed => ?_)
  · exact fun cause refused accepts =>
      not_hosts_of_checkTarget target refused accepts.2
  have movable := wellFormed.movable_iff.mpr ⟨node, of_findMovable found⟩
  have hosts := checkTarget_eq_ok_iff.mp passed
  obtain ⟨subtree, cloned, proper, _⟩ :=
    wellFormed.cloneSubtree_spec (of_findMovable found).1 movable.2
  rw [Edit.bind_apply, copyNode_eq_ok cloned]
  refine (wellFormed.attach_exact target position ⟨movable, hosts⟩ proper hosts
    fun keeps => keeps.suits cloned rfl ?_).mono
    fun top after added => ⟨subtree, cloned, added⟩
  rintro other (absent | ⟨_, impossible, _⟩)
  · exact absent
  · cases impossible

theorem add_move_exact (hash : NodeHash) :
    Edit.Exact (tree.Accepts target false (.resident hash))
      (tree.KeepsHashes false (.resident hash)) (tree.HasIndices target)
      (fun top after => ∃ subtree, tree.cloneSubtree hash = some subtree ∧
        tree.Added after (some hash) target position subtree top) tree
      (add (.resident hash) target position false tree) := by
  unfold add
  refine .after_get (.after_require ?_ fun node found => ?_)
  · exact fun cause refused accepts =>
      wellFormed.not_movable_of_findMovable refused accepts.1
  refine .after_get (.after_guard ?_ fun apart => ?_)
  · rintro (rfl | isAncestor) ⟨_, outside, _⟩
    · exact outside .top
    · obtain ⟨steps, _, reached⟩ := isAncestorWithin_iff.mp isAncestor
      exact outside (within_of_climb reached)
  refine .after_get (.after_require ?_ fun _ passed => ?_)
  · exact fun cause refused accepts =>
      not_hosts_of_checkTarget target refused accepts.2.2
  have movable := wellFormed.movable_iff.mpr ⟨node, of_findMovable found⟩
  have hosts := checkTarget_eq_ok_iff.mp passed
  obtain ⟨targetNode, registered, _⟩ := of_checkTarget passed
  rw [not_or, wellFormed.isAncestor_iff registered] at apart
  have outside : ¬ tree.Within hash target :=
    fun within => apart.2 ⟨within, apart.1⟩
  obtain ⟨slot, parentNode, subtree, middle, detached, cloned, proper,
    middleWellFormed, same, pruned⟩ := wellFormed.detach_pruned movable
  have departed := wellFormed.departed_of_pruned pruned
  obtain ⟨targetNow, targetFound, stays, children⟩ :=
    departed.stays registered outside
  have fits := hosts.fits registered (wellFormed.children_nodup registered)
  rw [← stays.arity, staying, Option.elim_some, ← children] at fits
  rw [Edit.bind_apply, detached]
  refine .of_delivers ⟨movable, outside, hosts⟩
    ((middleWellFormed.attach_added proper targetFound fits position).weaken
      fun top after added => ⟨subtree, cloned, departed.added outside registered added⟩)
    (fun keeps => (keeps.suits cloned (by rw [same]) departed.free).affords) ?_
  intro spare
  exact NodeKind.overflowsAt_eq_false
    (pruned.hasIndices outside spare targetNow targetFound) _

end WellFormed

end Tree

namespace TreePair

open BehaviorTree.Tree

/-- The conditions under which a node of the source tree may be added. -/
def Accepts (pair : TreePair) (hash target : NodeHash) : Prop :=
  pair.source.Movable hash ∧ pair.dest.Hosts target none

/-- No hash has to be minted for a node of the source tree. -/
def KeepsHashes (pair : TreePair) (hash : NodeHash) : Prop :=
  ∃ subtree, pair.source.cloneSubtree hash = some subtree ∧
    pair.dest.Suits subtree.hints

variable {pair : TreePair} (wellFormed : pair.WellFormed)
include wellFormed

end TreePair

namespace Tree

/-- The tree with a subtree below its root. -/
def grown (tree : Tree) (subtree : Subtree) : Option Tree :=
  Edit.settle (Edit.discard (add (.detached subtree) tree.root none false)) tree

theorem of_grown {id : TreeId} {name : String} {hashing : HashConfig}
    {subtree : Subtree} {tree : Tree}
    (settled : (build id name hashing).grown subtree = some tree) :
    tree.WellFormed ∧ tree.ScopedTo id :=
  ⟨((WellFormed.build id name hashing).add_upholds none false _
      _).discard.of_settle (.build id name hashing) settled,
    (add_keeps _ _ none false).discard.of_settle (.build id name hashing) settled⟩

/-- A watch by day and by night, with one guard who has the day. -/
def watch : Subtree :=
  { name := "watch", hash := some ⟨"watch-1"⟩, kind := .selector
    children :=
      [{ name := "day", hash := some ⟨"day-1"⟩, kind := .sequence
         children :=
          [{ name := "guard", hash := some ⟨"guard-1"⟩, kind := .command "mark_a" }] },
       { name := "night", hash := some ⟨"night-1"⟩, kind := .sequence }] }

def camp : Tree := build ⟨1⟩ "camp" {}

def outpost : Tree := build ⟨2⟩ "outpost" {}

/-- A tree whose second hash is that of its root, and that draws once only. -/
def cramped : Tree :=
  build ⟨1⟩ "cramped" { tokenLength := 1, maxAttempts := 1 }

def chore : Subtree := { name := "chore", kind := .command "mark_a" }

end Tree

end BehaviorTree
