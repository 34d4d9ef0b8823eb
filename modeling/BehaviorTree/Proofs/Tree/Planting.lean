import BehaviorTree.Proofs.Tree.Detaching

/-!
# Registering subtrees

Registering a proper subtree adds nodes under hashes that were free and leaves
all others alone, whatever hashes the subtree suggests.  `Tree.Planted` is what
is known of the new nodes: their links agree among each other, and every one
lies at or below a top node that has the given parent.  It composes along the
recursion over the subtree.
-/

namespace BehaviorTree

theorem HashMinter.free_of_mintWithin {taken : NodeHash → Bool}
    {attempts : Nat} {minter rest : HashMinter} {hash : NodeHash}
    (minted : mintWithin taken attempts minter = (some hash, rest)) :
    taken hash = false := by
  induction attempts generalizing minter with
  | zero => simp [mintWithin] at minted
  | succ attempts induction =>
      rw [mintWithin] at minted
      cases isTaken : taken minter.candidate.1 with
      | true =>
          simp only [isTaken, if_true] at minted
          exact induction minted
      | false =>
          simp only [isTaken, Bool.false_eq_true, if_false, Prod.mk.injEq,
            Option.some.injEq] at minted
          exact minted.1 ▸ isTaken

theorem HashMinter.free_of_mint {taken : NodeHash → Bool}
    {minter rest : HashMinter} {hash : NodeHash}
    (minted : mint taken minter = (.ok hash, rest)) : taken hash = false := by
  rw [mint] at minted
  split at minted
  · next found final within =>
      cases minted
      exact free_of_mintWithin within
  · cases minted

namespace Tree

/-- The hash is free, and `after` differs from `before` at most in the
minter. -/
def Minted (before : Tree) (hash : NodeHash) (after : Tree) : Prop :=
  before.nodes[hash]? = none ∧ ∃ minter, after = { before with minter }

theorem mintHash_spec (tree : Tree) :
    Edit.Completes (tree.Minted · ·) (mintHash tree) := by
  unfold mintHash
  refine .after_get ?_
  cases minted : tree.minter.mint tree.contains with
  | mk answer minter =>
      cases answer with
      | error failure => trivial
      | ok hash =>
          exact ⟨contains_eq_false_iff.mp (HashMinter.free_of_mint minted),
            minter, rfl⟩

theorem keepOrMint_spec (tree : Tree) (hint : Option NodeHash) :
    Edit.Completes (tree.Minted · ·) (keepOrMint hint tree) := by
  cases hint with
  | none => exact mintHash_spec tree
  | some hint =>
      unfold keepOrMint
      refine .after_get ?_
      by_cases kept : (hint.isScopedTo tree.id && !tree.contains hint) = true
      · rw [if_pos kept]
        refine ⟨?_, tree.minter, rfl⟩
        rw [Bool.and_eq_true_iff, Bool.not_eq_true'] at kept
        exact contains_eq_false_iff.mp kept.2
      · rw [if_neg kept]
        exact mintHash_spec tree

/-- A node that `after` has beyond those of `before`.  Its children are new as
well. -/
structure FreshNode (before after : Tree) (hash : NodeHash) (node : Node) :
    Prop where
  keyed : node.hash = hash
  notRoot : node.kind.isRoot = false
  fitting : node.arity.allows node.children.length = true
  distinct : node.children.Nodup
  members : ∀ child, child ∈ node.children ↔
    before.nodes[child]? = none ∧ after.parentOf child = some hash

/-- `after` is `before` with new nodes at and below the given ones, which have
the given parent. -/
structure Planted (before after : Tree) (parent : NodeHash)
    (tops : List NodeHash) : Prop where
  sameRoot : after.root = before.root
  kept : ∀ {hash : NodeHash} {node : Node},
    before.nodes[hash]? = some node → after.nodes[hash]? = some node
  fresh : ∀ {hash : NodeHash} {node : Node}, before.nodes[hash]? = none →
    after.nodes[hash]? = some node → FreshNode before after hash node
  distinct : tops.Nodup
  top : ∀ hash ∈ tops,
    before.nodes[hash]? = none ∧ after.parentOf hash = some parent
  outward : ∀ {hash above : NodeHash}, before.nodes[hash]? = none →
    after.parentOf hash = some above →
    (before.nodes[above]? = none ∧
      ∃ node, after.nodes[above]? = some node) ∨
      (above = parent ∧ hash ∈ tops)
  rooted : ∀ {hash : NodeHash} {node : Node}, before.nodes[hash]? = none →
    after.nodes[hash]? = some node → ∃ top ∈ tops, after.Within top hash

namespace Planted

variable {before middle after : Tree} {parent : NodeHash}
  {tops more : List NodeHash}

theorem nothing (same : after.nodes = before.nodes)
    (sameRoot : after.root = before.root) : before.Planted after parent [] where
  sameRoot := sameRoot
  kept registered := by rw [same, registered]
  fresh absent registered := by simp [same, absent] at registered
  distinct := .nil
  top := by simp
  outward absent above := by simp [parentOf, same, absent] at above
  rooted absent registered := by simp [same, absent] at registered

theorem parentOf_kept (planted : before.Planted after parent tops)
    {hash : NodeHash} {node : Node}
    (registered : before.nodes[hash]? = some node) :
    after.parentOf hash = before.parentOf hash := by
  rw [parentOf_eq registered, parentOf_eq (planted.kept registered)]

theorem absent_before (planted : before.Planted after parent tops)
    {hash : NodeHash} (absent : after.nodes[hash]? = none) :
    before.nodes[hash]? = none := by
  cases registered : before.nodes[hash]? with
  | none => rfl
  | some node => simp [planted.kept registered] at absent

theorem within_kept (planted : before.Planted after parent tops)
    {top hash : NodeHash} (within : before.Within top hash) :
    after.Within top hash := by
  apply within.transport
  intro other belowTop _ notTop
  cases belowTop with
  | top => exact (notTop rfl).elim
  | step above _ =>
      obtain ⟨node, registered, _⟩ := registered_of_parentOf above
      exact planted.parentOf_kept registered

section Append

variable (first : before.Planted middle parent tops)
  (second : middle.Planted after parent more) {parentNode : Node}
  (parentRegistered : before.nodes[parent]? = some parentNode)
include first second parentRegistered

/-- The second registration gives no children to the nodes of the first. -/
theorem fresh_of_first {hash : NodeHash} {node : Node}
    (absent : before.nodes[hash]? = none)
    (registered : middle.nodes[hash]? = some node) :
    FreshNode before after hash node := by
  have fresh := first.fresh absent registered
  refine { fresh with members := fun child => ?_ }
  rw [fresh.members]
  apply and_congr_right
  intro childAbsent
  cases childMiddle : middle.nodes[child]? with
  | some childNode => rw [second.parentOf_kept childMiddle]
  | none =>
      constructor
      · intro above
        simp [parentOf, childMiddle] at above
      · intro above
        rcases second.outward childMiddle above with
          ⟨hashAbsent, _⟩ | ⟨same, _⟩
        · simp [registered] at hashAbsent
        · simp [same, parentRegistered] at absent

/-- The nodes of the second registration list none of the first. -/
theorem fresh_of_second {hash : NodeHash} {node : Node}
    (absent : middle.nodes[hash]? = none)
    (registered : after.nodes[hash]? = some node) :
    FreshNode before after hash node := by
  have fresh := second.fresh absent registered
  refine { fresh with members := fun child => ?_ }
  rw [fresh.members]
  apply and_congr_left
  intro above
  refine ⟨first.absent_before, ?_⟩
  intro childAbsent
  cases childMiddle : middle.nodes[child]? with
  | none => rfl
  | some childNode =>
      rw [second.parentOf_kept childMiddle] at above
      rcases first.outward childAbsent above with
        ⟨_, hashNode, hashRegistered⟩ | ⟨same, _⟩
      · simp [hashRegistered] at absent
      · simp [same, first.kept parentRegistered] at absent

/-- Subtrees that are registered one after the other. -/
theorem append : before.Planted after parent (tops ++ more) where
  sameRoot := second.sameRoot.trans first.sameRoot
  kept registered := second.kept (first.kept registered)
  fresh := by
    intro hash node absent registered
    cases middleRegistered : middle.nodes[hash]? with
    | some old =>
        obtain rfl : old = node := by
          simpa [second.kept middleRegistered] using registered
        exact first.fresh_of_first second parentRegistered absent
          middleRegistered
    | none =>
        exact first.fresh_of_second second parentRegistered middleRegistered
          registered
  distinct := by
    refine List.nodup_append.mpr ⟨first.distinct, second.distinct, ?_⟩
    intro hash member _ memberMore same
    subst same
    obtain ⟨node, registered, _⟩ :=
      registered_of_parentOf (first.top hash member).2
    simp [(second.top hash memberMore).1] at registered
  top := by
    intro hash member
    rcases List.mem_append.mp member with member | member
    · obtain ⟨absent, above⟩ := first.top hash member
      obtain ⟨node, registered, _⟩ := registered_of_parentOf above
      exact ⟨absent, by rw [second.parentOf_kept registered, above]⟩
    · obtain ⟨absent, above⟩ := second.top hash member
      exact ⟨first.absent_before absent, above⟩
  outward := by
    intro hash found absent above
    cases middleRegistered : middle.nodes[hash]? with
    | some node =>
        rw [second.parentOf_kept middleRegistered] at above
        rcases first.outward absent above with
          ⟨foundAbsent, foundNode, foundRegistered⟩ | ⟨same, member⟩
        · exact .inl ⟨foundAbsent, foundNode, second.kept foundRegistered⟩
        · exact .inr ⟨same, List.mem_append_left _ member⟩
    | none =>
        rcases second.outward middleRegistered above with
          ⟨foundAbsent, foundRegistered⟩ | ⟨same, member⟩
        · exact .inl ⟨first.absent_before foundAbsent, foundRegistered⟩
        · exact .inr ⟨same, List.mem_append_right _ member⟩
  rooted := by
    intro hash node absent registered
    cases middleRegistered : middle.nodes[hash]? with
    | some old =>
        obtain ⟨top, member, within⟩ := first.rooted absent middleRegistered
        exact ⟨top, List.mem_append_left _ member, second.within_kept within⟩
    | none =>
        obtain ⟨top, member, within⟩ :=
          second.rooted middleRegistered registered
        exact ⟨top, List.mem_append_right _ member, within⟩

end Append

section Update

variable {hash : NodeHash} {node : Node} {change : Node → Node}

theorem absent_update_iff (registered : before.nodes[hash]? = some node)
    {other : NodeHash} :
    (before.updateNode hash change).nodes[other]? = none ↔
      before.nodes[other]? = none := by
  by_cases here : other = hash
  · simp [here, registered]
  · simp [here]

theorem nodes_update_of_absent (registered : before.nodes[hash]? = some node)
    {other : NodeHash} (absent : before.nodes[other]? = none) :
    (after.updateNode hash change).nodes[other]? = after.nodes[other]? := by
  rw [nodes_updateNode, if_neg]
  intro same
  subst same
  simp [registered] at absent

variable (planted : before.Planted after parent tops)
  (registered : before.nodes[hash]? = some node)
include planted registered

theorem kept_update {other : NodeHash} {otherNode : Node}
    (otherRegistered :
      (before.updateNode hash change).nodes[other]? = some otherNode) :
    (after.updateNode hash change).nodes[other]? = some otherNode := by
  rw [nodes_updateNode] at otherRegistered ⊢
  by_cases here : other = hash
  · rw [if_pos here, here, registered] at otherRegistered
    rw [if_pos here, here, planted.kept registered]
    exact otherRegistered
  · rw [if_neg here] at otherRegistered ⊢
    exact planted.kept otherRegistered

theorem parentOf_update (same : (change node).parent = node.parent)
    (other : NodeHash) :
    (after.updateNode hash change).parentOf other = after.parentOf other := by
  apply parentOf_updateNode
  intro current currentRegistered
  rw [planted.kept registered] at currentRegistered
  cases currentRegistered
  exact same

theorem update_old (same : (change node).parent = node.parent) :
    (before.updateNode hash change).Planted (after.updateNode hash change)
      parent tops where
  sameRoot := planted.sameRoot
  kept := planted.kept_update registered
  fresh := by
    intro other otherNode absent otherRegistered
    rw [absent_update_iff registered] at absent
    rw [nodes_update_of_absent registered absent] at otherRegistered
    have fresh := planted.fresh absent otherRegistered
    refine { fresh with members := fun child => ?_ }
    rw [fresh.members, absent_update_iff registered,
      planted.parentOf_update registered same]
  distinct := planted.distinct
  top := by
    intro top member
    rw [absent_update_iff registered, planted.parentOf_update registered same]
    exact planted.top top member
  outward := by
    intro other found absent above
    rw [absent_update_iff registered] at absent
    rw [planted.parentOf_update registered same] at above
    apply (planted.outward absent above).imp_left
    intro ⟨foundAbsent, foundRegistered⟩
    rw [absent_update_iff registered,
      nodes_update_of_absent registered foundAbsent]
    exact ⟨foundAbsent, foundRegistered⟩
  rooted := by
    intro other otherNode absent otherRegistered
    rw [absent_update_iff registered] at absent
    rw [nodes_update_of_absent registered absent] at otherRegistered
    obtain ⟨top, member, within⟩ := planted.rooted absent otherRegistered
    refine ⟨top, member, within.transport fun child _ _ _ => ?_⟩
    exact planted.parentOf_update registered same child

end Update

end Planted

/-- A new node above subtrees that are registered below it: `start` has the
node, `middle` the subtrees as well, and in `after` the node lists them. -/
structure Topped (before start middle after : Tree) (parent : NodeHash)
    (node : Node) (hashes : List NodeHash) : Prop where
  absent : before.nodes[node.hash]? = none
  parentRegistered : ∃ parentNode, before.nodes[parent]? = some parentNode
  above : node.parent = some parent
  notRoot : node.kind.isRoot = false
  fitting : node.arity.allows hashes.length = true
  startRoot : start.root = before.root
  startNow : start.nodes[node.hash]? = some node
  startElsewhere : ∀ {other : NodeHash}, other ≠ node.hash →
    start.nodes[other]? = before.nodes[other]?
  planted : start.Planted middle node.hash hashes
  sameRoot : after.root = middle.root
  now : after.nodes[node.hash]? = some { node with children := hashes }
  elsewhere : ∀ {other : NodeHash}, other ≠ node.hash →
    after.nodes[other]? = middle.nodes[other]?

namespace Topped

variable {before start middle after : Tree} {parent : NodeHash} {node : Node}
  {hashes : List NodeHash}
  (topped : before.Topped start middle after parent node hashes)
include topped

theorem ne_of_registered {other : NodeHash} {otherNode : Node}
    (registered : before.nodes[other]? = some otherNode) :
    other ≠ node.hash := by
  intro same
  subst same
  simp [topped.absent] at registered

theorem absent_iff {other : NodeHash} : start.nodes[other]? = none ↔
    before.nodes[other]? = none ∧ other ≠ node.hash := by
  by_cases here : other = node.hash
  · simp [here, topped.startNow]
  · simp [here, topped.startElsewhere here]

theorem parentOf_eq (other : NodeHash) :
    after.parentOf other = middle.parentOf other := by
  by_cases here : other = node.hash
  · rw [here, Tree.parentOf_eq topped.now,
      Tree.parentOf_eq (topped.planted.kept topped.startNow)]
  · rw [parentOf, parentOf, topped.elsewhere here]

theorem parentOf_top : after.parentOf node.hash = some parent := by
  rw [Tree.parentOf_eq topped.now, topped.above]

theorem upward {other found : NodeHash}
    (otherAbsent : before.nodes[other]? = none) (notTop : other ≠ node.hash)
    (otherAbove : after.parentOf other = some found) :
    (start.nodes[found]? = none ∧
      ∃ foundNode, middle.nodes[found]? = some foundNode) ∨
      (found = node.hash ∧ other ∈ hashes) := by
  rw [topped.parentOf_eq] at otherAbove
  exact topped.planted.outward (topped.absent_iff.mpr ⟨otherAbsent, notTop⟩)
    otherAbove

theorem kept {other : NodeHash} {otherNode : Node}
    (registered : before.nodes[other]? = some otherNode) :
    after.nodes[other]? = some otherNode := by
  have different := topped.ne_of_registered registered
  rw [topped.elsewhere different]
  exact topped.planted.kept (by rw [topped.startElsewhere different, registered])

theorem fresh_top :
    FreshNode before after node.hash { node with children := hashes } := by
  refine ⟨rfl, topped.notRoot, topped.fitting, topped.planted.distinct, ?_⟩
  intro child
  constructor
  · intro member
    obtain ⟨childAbsent, childAbove⟩ := topped.planted.top child member
    exact ⟨(topped.absent_iff.mp childAbsent).1,
      by rw [topped.parentOf_eq, childAbove]⟩
  · intro ⟨childAbsent, childAbove⟩
    by_cases childTop : child = node.hash
    · obtain ⟨parentNode, parentRegistered⟩ := topped.parentRegistered
      rw [childTop, topped.parentOf_top] at childAbove
      exact (topped.ne_of_registered parentRegistered
        (Option.some.inj childAbove)).elim
    · rcases topped.upward childAbsent childTop childAbove with
        ⟨hashAbsent, _⟩ | ⟨_, member⟩
      · simp [topped.startNow] at hashAbsent
      · exact member

theorem fresh_below {other : NodeHash} {otherNode : Node}
    (otherAbsent : before.nodes[other]? = none) (notTop : other ≠ node.hash)
    (registered : middle.nodes[other]? = some otherNode) :
    FreshNode before after other otherNode := by
  have fresh := topped.planted.fresh
    (topped.absent_iff.mpr ⟨otherAbsent, notTop⟩) registered
  refine { fresh with members := fun child => ?_ }
  rw [fresh.members, topped.parentOf_eq, topped.absent_iff, and_assoc]
  apply and_congr_right
  intro _
  refine ⟨And.right, fun childAbove => ⟨?_, childAbove⟩⟩
  intro same
  subst same
  obtain ⟨parentNode, parentRegistered⟩ := topped.parentRegistered
  rw [← topped.parentOf_eq, topped.parentOf_top, Option.some.injEq] at childAbove
  simp [← childAbove, parentRegistered] at otherAbsent

theorem rooted {other : NodeHash} {otherNode : Node}
    (otherAbsent : before.nodes[other]? = none)
    (registered : after.nodes[other]? = some otherNode) :
    after.Within node.hash other := by
  by_cases here : other = node.hash
  · exact here ▸ .top
  · rw [topped.elsewhere here] at registered
    obtain ⟨top, member, within⟩ := topped.planted.rooted
      (topped.absent_iff.mpr ⟨otherAbsent, here⟩) registered
    have topBelow : after.parentOf top = some node.hash := by
      rw [topped.parentOf_eq, (topped.planted.top top member).2]
    refine (Within.child topBelow rfl).trans (within.transport ?_)
    exact fun child _ _ _ => topped.parentOf_eq child

theorem planted_after : before.Planted after parent [node.hash] where
  sameRoot :=
    topped.sameRoot.trans (topped.planted.sameRoot.trans topped.startRoot)
  kept := topped.kept
  fresh := by
    intro other otherNode otherAbsent registered
    by_cases here : other = node.hash
    · rw [here, topped.now, Option.some.injEq] at registered
      subst registered here
      exact topped.fresh_top
    · rw [topped.elsewhere here] at registered
      exact topped.fresh_below otherAbsent here registered
  distinct := List.nodup_singleton _
  top := by
    intro other member
    rw [List.mem_singleton.mp member]
    exact ⟨topped.absent, topped.parentOf_top⟩
  outward := by
    intro other found otherAbsent otherAbove
    by_cases here : other = node.hash
    · rw [here, topped.parentOf_top, Option.some.injEq] at otherAbove
      exact .inr ⟨otherAbove.symm, List.mem_singleton.mpr here⟩
    · rcases topped.upward otherAbsent here otherAbove with
        ⟨foundAbsent, foundNode, foundRegistered⟩ | ⟨same, _⟩
      · obtain ⟨foundBefore, different⟩ := topped.absent_iff.mp foundAbsent
        rw [topped.elsewhere different]
        exact .inl ⟨foundBefore, foundNode, foundRegistered⟩
      · rw [same]
        exact .inl ⟨topped.absent, _, topped.now⟩
  rooted otherAbsent registered :=
    ⟨node.hash, List.mem_singleton.mpr rfl, topped.rooted otherAbsent registered⟩

end Topped

mutual

/-- Registering a proper subtree is not refused. -/
theorem register_spec (subtree : Subtree) (proper : subtree.Proper)
    {tree : Tree} {parent : NodeHash} {parentNode : Node}
    (parentRegistered : tree.nodes[parent]? = some parentNode) :
    Edit.Completes
      (fun hash after => tree.Planted after parent [hash] ∧
        ∃ node, after.nodes[hash]? = some node ∧
          node.kind = subtree.kind ∧
          node.children.length = subtree.children.length)
      (register parent subtree tree) := by
  match subtree, proper with
  | ⟨name, hint, weight, kind, children⟩, .mk notRoot fitting childrenProper =>
      rw [register]
      apply (keepOrMint_spec tree hint).bind
      rintro hash _ ⟨absent, minter, rfl⟩
      refine .after_modify ?_
      let node : Node :=
        { name, hash, parent := some parent, children := [], weight, kind }
      let start : Tree := { tree with minter }.insertNode node
      have registered : start.nodes[hash]? = some node := by simp [start, node]
      apply (registerEach_spec children childrenProper registered).bind
      intro hashes middle ⟨planted, length⟩
      refine .after_modify ?_
      let after : Tree :=
        middle.updateNode hash fun node => { node with children := hashes }
      have now : after.nodes[hash]? = some { node with children := hashes } := by
        simp [after, planted.kept registered]
      have topped : tree.Topped start middle after parent node hashes :=
        { absent, parentRegistered := ⟨parentNode, parentRegistered⟩
          above := rfl, notRoot
          fitting := by rw [Node.arity, length]; exact fitting
          startRoot := rfl, startNow := registered
          startElsewhere := fun different => by simp [start, node, different]
          planted, sameRoot := rfl, now
          elsewhere := fun {other} different => by
            rw [nodes_updateNode, if_neg (different : other ≠ hash)] }
      exact ⟨topped.planted_after, _, now, rfl, length⟩

theorem registerEach_spec (children : List Subtree)
    (proper : ∀ child ∈ children, child.Proper)
    {tree : Tree} {parent : NodeHash} {parentNode : Node}
    (parentRegistered : tree.nodes[parent]? = some parentNode) :
    Edit.Completes
      (fun hashes after => tree.Planted after parent hashes ∧
        hashes.length = children.length)
      (registerEach parent children tree) := by
  match children with
  | [] => exact ⟨.nothing rfl rfl, rfl⟩
  | child :: rest =>
      rw [registerEach]
      refine (register_spec child (proper child List.mem_cons_self)
        parentRegistered).bind ?_
      intro hash middle ⟨first, _⟩
      refine (registerEach_spec rest
        (fun other member => proper other (List.mem_cons_of_mem _ member))
        (first.kept parentRegistered)).bind ?_
      intro hashes after ⟨second, length⟩
      exact ⟨first.append second parentRegistered, by simp [length]⟩

end

end Tree

end BehaviorTree
