import Mathlib.Data.List.Nodup
import Mathlib.Data.List.Perm.Subperm
import BehaviorTree.Proofs.Node
import BehaviorTree.Tree.Edit

/-!
# Well-formed trees

`Tree.WellFormed` is the invariant of a tree's registry, and `Tree.Within` the
relation of a node to the nodes above it.  The ways up from a node are counted
by `Tree.climb`; no way up is longer than the registry is large, so the bounded
traversals of a tree reach everything that an unbounded one would.
-/

namespace BehaviorTree

namespace Tree

@[simp] theorem nodes_insertNode
    (tree : Tree) (node : Node) (hash : NodeHash) :
    (tree.insertNode node).nodes[hash]? =
      if hash = node.hash then some node else tree.nodes[hash]? := by
  simp only [insertNode, Std.ExtTreeMap.getElem?_insert,
    Std.LawfulEqCmp.compare_eq_iff_eq]
  by_cases same : node.hash = hash
  · simp [same]
  · simp [same, Ne.symm same]

@[simp] theorem nodes_updateNode
    (tree : Tree) (hash : NodeHash) (change : Node → Node) (other : NodeHash) :
    (tree.updateNode hash change).nodes[other]? =
      if other = hash then (tree.nodes[other]?).map change
      else tree.nodes[other]? := by
  simp only [updateNode, Std.ExtTreeMap.getElem?_modify,
    Std.LawfulEqCmp.compare_eq_iff_eq]
  by_cases same : hash = other
  · simp [same]
  · simp [same, Ne.symm same]

theorem updateNode_congr {tree : Tree} {hash : NodeHash} {node : Node}
    {first second : Node → Node} (registered : tree.nodes[hash]? = some node)
    (same : first node = second node) :
    tree.updateNode hash first = tree.updateNode hash second := by
  have nodes : (tree.updateNode hash first).nodes =
      (tree.updateNode hash second).nodes := by
    refine Std.ExtTreeMap.ext_getElem? fun other => ?_
    rw [nodes_updateNode, nodes_updateNode]
    by_cases here : other = hash
    · rw [if_pos here, if_pos here, here, registered, Option.map_some,
        Option.map_some, same]
    · rw [if_neg here, if_neg here]
  exact congrArg (fun nodes => { tree with nodes }) nodes

theorem registered_updateNode {tree : Tree} {other : NodeHash} {node : Node}
    (registered : tree.nodes[other]? = some node) (hash : NodeHash)
    (change : Node → Node) :
    (tree.updateNode hash change).nodes[other]? =
      some (if other = hash then change node else node) := by
  rw [nodes_updateNode, registered]
  split <;> rfl

@[simp] theorem root_insertNode (tree : Tree) (node : Node) :
    (tree.insertNode node).root = tree.root := rfl

@[simp] theorem root_updateNode
    (tree : Tree) (hash : NodeHash) (change : Node → Node) :
    (tree.updateNode hash change).root = tree.root := rfl

theorem contains_eq_isSome (tree : Tree) (hash : NodeHash) :
    tree.contains hash = (tree.nodes[hash]?).isSome := by
  simp [contains]

theorem contains_eq_false_iff {tree : Tree} {hash : NodeHash} :
    tree.contains hash = false ↔ tree.nodes[hash]? = none := by
  rw [contains_eq_isSome, Option.isSome_eq_false_iff, Option.isNone_iff_eq_none]

theorem parentOf_eq {tree : Tree} {hash : NodeHash} {node : Node}
    (registered : tree.nodes[hash]? = some node) :
    tree.parentOf hash = node.parent := by
  simp [parentOf, registered]

theorem childrenOf_eq {tree : Tree} {hash : NodeHash} {node : Node}
    (registered : tree.nodes[hash]? = some node) :
    tree.childrenOf hash = node.children := by
  simp [childrenOf, registered]

theorem registered_of_parentOf {tree : Tree} {hash parent : NodeHash}
    (above : tree.parentOf hash = some parent) :
    ∃ node, tree.nodes[hash]? = some node ∧ node.parent = some parent := by
  simpa [parentOf, Option.bind_eq_some_iff] using above

theorem parentOf_updateNode {tree : Tree} {hash : NodeHash}
    {change : Node → Node}
    (same : ∀ {node : Node}, tree.nodes[hash]? = some node →
      (change node).parent = node.parent)
    (other : NodeHash) :
    (tree.updateNode hash change).parentOf other = tree.parentOf other := by
  simp only [parentOf, nodes_updateNode]
  by_cases here : other = hash
  · rw [if_pos here]
    cases registered : tree.nodes[other]? with
    | none => rfl
    | some node => exact same (here ▸ registered)
  · rw [if_neg here]

theorem length_le_size (tree : Tree) {hashes : List NodeHash}
    (distinct : hashes.Nodup)
    (registered : ∀ hash ∈ hashes, tree.nodes[hash]?.isSome) :
    hashes.length ≤ tree.nodes.size := by
  rw [← Std.ExtTreeMap.length_keys]
  refine (List.subperm_of_subset distinct ?_).length_le
  intro hash member
  rw [Std.ExtTreeMap.mem_keys]
  exact Std.ExtTreeMap.mem_iff_isSome_getElem?.mpr (registered hash member)

/-- Distinct registered hashes are all there are if they are as many. -/
theorem length_eq_size_iff (tree : Tree) {hashes : List NodeHash}
    (distinct : hashes.Nodup)
    (registered : ∀ hash ∈ hashes, tree.nodes[hash]?.isSome) :
    hashes.length = tree.nodes.size ↔
      ∀ {hash : NodeHash} {node : Node},
        tree.nodes[hash]? = some node → hash ∈ hashes := by
  have isKey {hash : NodeHash} : hash ∈ tree.nodes.keys ↔ tree.nodes[hash]?.isSome := by
    rw [Std.ExtTreeMap.mem_keys, Std.ExtTreeMap.mem_iff_isSome_getElem?]
  constructor
  · intro same hash node isNode
    have fewer : hashes.Subperm tree.nodes.keys :=
      List.subperm_of_subset distinct fun other member =>
        isKey.mpr (registered other member)
    rw [← Std.ExtTreeMap.length_keys] at same
    exact (fewer.perm_of_length_le (Nat.le_of_eq same.symm)).mem_iff.mpr
      (isKey.mpr (by rw [isNode]; rfl))
  · intro complete
    refine Nat.le_antisymm (tree.length_le_size distinct registered) ?_
    rw [← Std.ExtTreeMap.length_keys]
    refine (List.subperm_of_subset Std.ExtTreeMap.nodup_keys fun hash member => ?_).length_le
    obtain ⟨node, isNode⟩ := Option.isSome_iff_exists.mp (isKey.mp member)
    exact complete isNode

/-- `hash` is `top` or lies somewhere below it. -/
inductive Within (tree : Tree) (top : NodeHash) : NodeHash → Prop where
  | top : Within tree top top
  | step {hash parent : NodeHash} :
      tree.parentOf hash = some parent →
      Within tree top parent →
      Within tree top hash

/-- The registry of a tree is one tree: parent and child links agree, every way
up ends at the root, and no node has more children than its kind allows. -/
structure WellFormed (tree : Tree) : Prop where
  keyed : ∀ {hash : NodeHash} {node : Node},
    tree.nodes[hash]? = some node → node.hash = hash
  rootRegistered : ∃ node, tree.nodes[tree.root]? = some node ∧
    node.parent = none ∧ node.kind = .root
  rootUnique : ∀ {hash : NodeHash} {node : Node},
    tree.nodes[hash]? = some node → node.kind = .root → hash = tree.root
  listed : ∀ {hash : NodeHash} {node : Node},
    tree.nodes[hash]? = some node → hash ≠ tree.root →
    ∃ parent parentNode, node.parent = some parent ∧
      tree.nodes[parent]? = some parentNode ∧
      parentNode.children.count hash = 1
  linked : ∀ {hash : NodeHash} {node : Node} {child : NodeHash},
    tree.nodes[hash]? = some node → child ∈ node.children →
    ∃ childNode, tree.nodes[child]? = some childNode ∧
      childNode.parent = some hash
  rooted : ∀ {hash : NodeHash} {node : Node},
    tree.nodes[hash]? = some node → tree.Within tree.root hash
  fitting : ∀ {hash : NodeHash} {node : Node},
    tree.nodes[hash]? = some node →
    node.arity.allows node.children.length = true

namespace Within

variable {tree : Tree}

theorem trans {top middle hash : NodeHash}
    (upper : tree.Within top middle) (lower : tree.Within middle hash) :
    tree.Within top hash := by
  induction lower with
  | top => exact upper
  | step above _ induction => exact .step above induction

theorem child {top hash parent : NodeHash}
    (above : tree.parentOf hash = some parent) (same : parent = top) :
    tree.Within top hash :=
  .step above (same ▸ .top)

theorem registered {top hash : NodeHash} (within : tree.Within top hash)
    {node : Node} (atTop : tree.nodes[top]? = some node) :
    ∃ node, tree.nodes[hash]? = some node := by
  cases within with
  | top => exact ⟨node, atTop⟩
  | step above _ =>
      obtain ⟨found, registered, _⟩ := registered_of_parentOf above
      exact ⟨found, registered⟩

theorem comparable {first second hash : NodeHash}
    (belowFirst : tree.Within first hash)
    (belowSecond : tree.Within second hash) :
    tree.Within first second ∨ tree.Within second first := by
  induction belowFirst with
  | top => exact .inr belowSecond
  | @step hash parent above belowFirst induction =>
      cases belowSecond with
      | top => exact .inl (.step above belowFirst)
      | @step _ other otherAbove belowOther =>
          have same : other = parent := by
            simpa [above] using otherAbove.symm
          exact induction (same ▸ belowOther)

theorem transport {before after : Tree} {top hash : NodeHash}
    (within : before.Within top hash)
    (same : ∀ other, before.Within top other → before.Within other hash →
      other ≠ top → after.parentOf other = before.parentOf other) :
    after.Within top hash := by
  induction within with
  | top => exact .top
  | @step hash parent above within induction =>
      by_cases atTop : hash = top
      · exact atTop ▸ .top
      · refine .step ?_ (induction ?_)
        · rw [same hash (.step above within) .top atTop, above]
        · intro other belowTop aboveParent notTop
          exact same other belowTop (.step above aboveParent) notTop

end Within

/-- The node that lies the given number of steps above another. -/
def climb (tree : Tree) : Nat → NodeHash → Option NodeHash
  | 0, hash => some hash
  | steps + 1, hash => (tree.parentOf hash).bind (tree.climb steps)

theorem climb_add (tree : Tree) (first second : Nat) (hash : NodeHash) :
    tree.climb (first + second) hash =
      (tree.climb first hash).bind (tree.climb second) := by
  induction first generalizing hash with
  | zero => simp [climb]
  | succ first induction =>
      rw [Nat.succ_add_eq_add_succ, Nat.add_succ, climb, climb]
      cases tree.parentOf hash with
      | none => rfl
      | some parent => exact induction parent

theorem Within.exists_climb {tree : Tree} {top hash : NodeHash}
    (within : tree.Within top hash) :
    ∃ steps, tree.climb steps hash = some top := by
  induction within with
  | top => exact ⟨0, rfl⟩
  | step above _ induction =>
      obtain ⟨steps, reached⟩ := induction
      exact ⟨steps + 1, by simp [climb, above, reached]⟩

theorem within_of_climb {tree : Tree} {top hash : NodeHash} {steps : Nat}
    (reached : tree.climb steps hash = some top) : tree.Within top hash := by
  induction steps generalizing hash with
  | zero =>
      simp only [climb, Option.some.injEq] at reached
      exact reached ▸ .top
  | succ steps induction =>
      simp only [climb, Option.bind_eq_some_iff] at reached
      obtain ⟨parent, above, reached⟩ := reached
      exact .step above (induction reached)

namespace WellFormed

variable {tree : Tree} (wellFormed : tree.WellFormed)
include wellFormed

theorem parentOf_root : tree.parentOf tree.root = none := by
  obtain ⟨node, registered, parentless, _⟩ := wellFormed.rootRegistered
  rw [parentOf_eq registered, parentless]

theorem ne_root_of_parentOf {hash parent : NodeHash}
    (above : tree.parentOf hash = some parent) : hash ≠ tree.root := by
  intro same
  subst same
  simp [wellFormed.parentOf_root] at above

theorem isRoot_iff {hash : NodeHash} {node : Node}
    (registered : tree.nodes[hash]? = some node) :
    node.kind.isRoot = true ↔ hash = tree.root := by
  rw [NodeKind.isRoot_iff]
  constructor
  · exact wellFormed.rootUnique registered
  · intro same
    subst same
    obtain ⟨rootNode, rootRegistered, _, kind⟩ := wellFormed.rootRegistered
    rw [registered] at rootRegistered
    cases rootRegistered
    exact kind

theorem listed_of_parentOf {hash parent : NodeHash}
    (above : tree.parentOf hash = some parent) :
    ∃ parentNode, tree.nodes[parent]? = some parentNode ∧
      parentNode.children.count hash = 1 := by
  obtain ⟨node, registered, parentIs⟩ := registered_of_parentOf above
  obtain ⟨found, parentNode, foundIs, parentRegistered, once⟩ :=
    wellFormed.listed registered (wellFormed.ne_root_of_parentOf above)
  have same : found = parent := by simpa [parentIs] using foundIs.symm
  exact ⟨parentNode, same ▸ parentRegistered, once⟩

theorem mem_children_iff {hash parent : NodeHash} {parentNode : Node}
    (parentRegistered : tree.nodes[parent]? = some parentNode) :
    hash ∈ parentNode.children ↔ tree.parentOf hash = some parent := by
  constructor
  · intro member
    obtain ⟨node, registered, parentIs⟩ :=
      wellFormed.linked parentRegistered member
    rw [parentOf_eq registered, parentIs]
  · intro above
    obtain ⟨found, foundRegistered, once⟩ :=
      wellFormed.listed_of_parentOf above
    rw [parentRegistered] at foundRegistered
    cases foundRegistered
    exact List.count_pos_iff.mp (by omega)

theorem not_listed_elsewhere {hash parent other : NodeHash} {otherNode : Node}
    (above : tree.parentOf hash = some parent)
    (registered : tree.nodes[other]? = some otherNode)
    (notParent : other ≠ parent) : hash ∉ otherNode.children := by
  intro member
  rw [wellFormed.mem_children_iff registered, above] at member
  exact notParent (Option.some.inj member).symm

theorem children_nodup {hash : NodeHash} {node : Node}
    (registered : tree.nodes[hash]? = some node) : node.children.Nodup := by
  rw [List.nodup_iff_count_le_one]
  intro child
  by_cases member : child ∈ node.children
  · obtain ⟨found, foundRegistered, once⟩ := wellFormed.listed_of_parentOf
      ((wellFormed.mem_children_iff registered).mp member)
    rw [registered] at foundRegistered
    cases foundRegistered
    exact Nat.le_of_eq once
  · simp [List.count_eq_zero_of_not_mem member]

theorem registered_of_within {top hash : NodeHash} {node : Node}
    (registered : tree.nodes[hash]? = some node)
    (within : tree.Within top hash) :
    ∃ topNode, tree.nodes[top]? = some topNode := by
  induction within generalizing node with
  | top => exact ⟨node, registered⟩
  | step above _ induction =>
      obtain ⟨parentNode, parentRegistered, _⟩ :=
        wellFormed.listed_of_parentOf above
      exact induction parentRegistered

theorem climb_from_root (steps : Nat) :
    tree.climb (steps + 1) tree.root = none := by
  simp [climb, wellFormed.parentOf_root]

/-- All ways up from a node to the root have the same length. -/
theorem climb_root_unique {hash : NodeHash} {first second : Nat}
    (firstReached : tree.climb first hash = some tree.root)
    (secondReached : tree.climb second hash = some tree.root) :
    first = second := by
  have notShorter : ∀ {shorter longer : Nat},
      tree.climb shorter hash = some tree.root →
      tree.climb longer hash = some tree.root → longer ≤ shorter := by
    intro shorter longer shorterReached longerReached
    by_contra less
    obtain ⟨extra, rfl⟩ : ∃ extra, longer = shorter + (extra + 1) :=
      ⟨longer - shorter - 1, by omega⟩
    rw [climb_add, shorterReached, Option.bind_some,
      wellFormed.climb_from_root] at longerReached
    cases longerReached
  exact Nat.le_antisymm (notShorter secondReached firstReached)
    (notShorter firstReached secondReached)

theorem climb_ne_self {hash : NodeHash} {node : Node}
    (registered : tree.nodes[hash]? = some node) (steps : Nat) :
    tree.climb (steps + 1) hash ≠ some hash := by
  intro cycle
  obtain ⟨level, reached⟩ := (wellFormed.rooted registered).exists_climb
  have around : tree.climb (steps + 1 + level) hash = some tree.root := by
    rw [climb_add, cycle, Option.bind_some, reached]
  have := wellFormed.climb_root_unique around reached
  omega

theorem within_antisymm {first second : NodeHash} {node : Node}
    (registered : tree.nodes[first]? = some node)
    (secondBelow : tree.Within first second)
    (firstBelow : tree.Within second first) : first = second := by
  obtain ⟨down, downReached⟩ := secondBelow.exists_climb
  obtain ⟨up, upReached⟩ := firstBelow.exists_climb
  cases up with
  | zero => simpa [climb] using upReached
  | succ up =>
      have cycle : tree.climb (up + 1 + down) first = some first := by
        rw [climb_add, upReached, Option.bind_some, downReached]
      rw [Nat.add_right_comm] at cycle
      exact (wellFormed.climb_ne_self registered _ cycle).elim

theorem not_within_child {hash parent : NodeHash}
    (above : tree.parentOf hash = some parent) : ¬ tree.Within hash parent := by
  intro within
  obtain ⟨node, registered, _⟩ := registered_of_parentOf above
  have same : hash = parent :=
    wellFormed.within_antisymm registered within (.child above rfl)
  exact wellFormed.climb_ne_self registered 0 (by simpa [climb, same] using same ▸ above)

/-- A way up passes no node twice, so it is shorter than the registry. -/
theorem climb_lt_size {hash top : NodeHash} {node : Node} {steps : Nat}
    (registered : tree.nodes[hash]? = some node)
    (reached : tree.climb steps hash = some top) :
    steps < tree.nodes.size := by
  have passed : ∃ hashes : List NodeHash, hashes.length = steps + 1 ∧
      hashes.Nodup ∧ ∀ other ∈ hashes, tree.Within other hash := by
    induction steps generalizing hash node with
    | zero => exact ⟨[hash], by simp, by simp, by simp [Within.top]⟩
    | succ steps induction =>
        obtain ⟨parent, above, reached⟩ := Option.bind_eq_some_iff.mp reached
        obtain ⟨parentNode, parentRegistered, _⟩ :=
          wellFormed.listed_of_parentOf above
        obtain ⟨hashes, length, distinct, upward⟩ :=
          induction parentRegistered reached
        refine ⟨hash :: hashes, by simp [length], ?_, ?_⟩
        · refine List.nodup_cons.mpr ⟨?_, distinct⟩
          intro member
          exact wellFormed.not_within_child above (upward hash member)
        · intro other member
          rcases List.mem_cons.mp member with rfl | member
          · exact .top
          · exact .step above (upward other member)
  obtain ⟨hashes, length, distinct, upward⟩ := passed
  have bound := tree.length_le_size distinct fun other member => by
    obtain ⟨otherNode, otherRegistered⟩ :=
      wellFormed.registered_of_within registered (upward other member)
    simp [otherRegistered]
  omega

end WellFormed

/-- The invariant from the parents of the nodes: child lists repeat what the
parents say. -/
theorem WellFormed.of_links {tree : Tree}
    (keyed : ∀ {hash : NodeHash} {node : Node},
      tree.nodes[hash]? = some node → node.hash = hash)
    (rootRegistered : ∃ node, tree.nodes[tree.root]? = some node ∧
      node.parent = none ∧ node.kind.isRoot = true)
    (rootUnique : ∀ {hash : NodeHash} {node : Node},
      tree.nodes[hash]? = some node → node.kind.isRoot = true →
      hash = tree.root)
    (linked : ∀ {hash : NodeHash} {node : Node},
      tree.nodes[hash]? = some node → node.children.Nodup ∧
      ∀ child, child ∈ node.children ↔ tree.parentOf child = some hash)
    (rooted : ∀ {hash : NodeHash} {node : Node},
      tree.nodes[hash]? = some node → tree.Within tree.root hash)
    (fitting : ∀ {hash : NodeHash} {node : Node},
      tree.nodes[hash]? = some node →
      node.arity.allows node.children.length = true) : tree.WellFormed where
  keyed := keyed
  rootRegistered := by
    obtain ⟨node, registered, parentless, isRoot⟩ := rootRegistered
    exact ⟨node, registered, parentless, NodeKind.isRoot_iff.mp isRoot⟩
  rootUnique registered isRoot :=
    rootUnique registered (NodeKind.isRoot_iff.mpr isRoot)
  listed := by
    intro hash node registered notRoot
    cases rooted registered with
    | top => exact (notRoot rfl).elim
    | @step _ parent above within =>
        have parentRegistered :
            ∃ parentNode, tree.nodes[parent]? = some parentNode := by
          cases within with
          | top =>
              obtain ⟨rootNode, found, _⟩ := rootRegistered
              exact ⟨rootNode, found⟩
          | step parentAbove _ =>
              obtain ⟨parentNode, found, _⟩ :=
                registered_of_parentOf parentAbove
              exact ⟨parentNode, found⟩
        obtain ⟨parentNode, found⟩ := parentRegistered
        obtain ⟨distinct, members⟩ := linked found
        exact ⟨parent, parentNode, by rw [← above, parentOf_eq registered],
          found, List.count_eq_one_of_mem distinct ((members hash).mpr above)⟩
  linked := by
    intro hash node child registered member
    exact registered_of_parentOf (((linked registered).2 child).mp member)
  rooted := rooted
  fitting := fitting

theorem isAncestorWithin_iff
    {tree : Tree} {ancestor hash : NodeHash} {fuel : Nat} :
    tree.isAncestorWithin ancestor fuel hash = true ↔
      ∃ steps < fuel, tree.climb (steps + 1) hash = some ancestor := by
  induction fuel generalizing hash with
  | zero => simp [isAncestorWithin]
  | succ fuel induction =>
      rw [isAncestorWithin]
      cases above : tree.parentOf hash with
      | none => simp [climb, above]
      | some parent =>
          simp only [Bool.or_eq_true, decide_eq_true_eq, induction]
          constructor
          · rintro (same | ⟨steps, bound, reached⟩)
            · exact ⟨0, by omega, by simp [climb, above, same]⟩
            · exact ⟨steps + 1, by omega, by
                rw [climb, above, Option.bind_some, reached]⟩
          · intro ⟨steps, bound, reached⟩
            rw [climb, above, Option.bind_some] at reached
            cases steps with
            | zero => exact .inl (by simpa [climb] using reached)
            | succ steps => exact .inr ⟨steps, by omega, reached⟩

/-- The bounded search for an ancestor misses none. -/
theorem WellFormed.isAncestor_iff {tree : Tree} (wellFormed : tree.WellFormed)
    {ancestor hash : NodeHash} {node : Node}
    (registered : tree.nodes[hash]? = some node) :
    tree.isAncestor ancestor hash = true ↔
      tree.Within ancestor hash ∧ ancestor ≠ hash := by
  rw [isAncestor, isAncestorWithin_iff]
  constructor
  · intro ⟨steps, _, reached⟩
    refine ⟨within_of_climb reached, ?_⟩
    intro same
    subst same
    exact wellFormed.climb_ne_self registered steps reached
  · intro ⟨within, different⟩
    obtain ⟨steps, reached⟩ := within.exists_climb
    cases steps with
    | zero => exact (different (by simpa [climb] using reached.symm)).elim
    | succ steps =>
        have bound := wellFormed.climb_lt_size registered reached
        exact ⟨steps, by omega, reached⟩

end Tree

end BehaviorTree
