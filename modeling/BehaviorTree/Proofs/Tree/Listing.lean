import BehaviorTree.Proofs.Tree.Adding
import BehaviorTree.Proofs.Tree.Walking

/-!
# The order of a walk in a tree

A walk keeps the nodes that it has yet to meet on a stack.  In a well-formed tree it
comes to an end by itself, and it has then listed the subtree of its start in
pre-order, each node once.  So a tree is found incomplete at the first node, in this
order, that lacks a child.
-/

namespace BehaviorTree

/-- The kinds that have one child to which they delegate. -/
def NodeKind.isDecorator : NodeKind → Bool
  | inverter | succeeder | failer | repeater _ | limiter _ | allocator _
  | verifier _ | echoDecorator _ => true
  | _ => false

theorem NodeKind.arity_eq_single_iff {kind : NodeKind} :
    kind.arity = .single ↔ kind = .root ∨ kind.isDecorator = true := by
  cases kind <;> simp [arity, isDecorator]

namespace Tree

/-- A walk that is not bounded: it meets the node on top of the stack, puts the
children in its place, and ends when the stack is empty. -/
inductive Walks (tree : Tree) : List NodeHash → List NodeHash → Prop where
  | finish : Walks tree [] []
  | meet {hash : NodeHash} {rest later : List NodeHash} :
      Walks tree (tree.childrenOf hash ++ rest) later →
      Walks tree (hash :: rest) (hash :: later)

/-- The subtrees of some registered nodes, one after the other, and each from its
top through the subtrees of the children in their order. -/
inductive Preorder (tree : Tree) : List NodeHash → List NodeHash → Prop where
  | nil : Preorder tree [] []
  | cons {hash : NodeHash} {node : Node} {rest below others : List NodeHash} :
      tree.nodes[hash]? = some node →
      Preorder tree node.children below →
      Preorder tree rest others →
      Preorder tree (hash :: rest) (hash :: (below ++ others))

/-- The node must have a child and has none. -/
def Lacks (tree : Tree) (hash : NodeHash) (node : Node) : Prop :=
  tree.nodes[hash]? = some node ∧
    (hash = tree.root ∨ node.kind.isDecorator = true) ∧ node.children = []

variable {tree : Tree}

theorem Walks.unique {stack first second : List NodeHash}
    (walks : tree.Walks stack first) (again : tree.Walks stack second) :
    first = second := by
  induction walks generalizing second with
  | finish =>
      cases again
      rfl
  | meet _ induction =>
      cases again with
      | meet later => rw [induction later]

theorem Preorder.unique {tops first second : List NodeHash}
    (ordered : tree.Preorder tops first) (again : tree.Preorder tops second) :
    first = second := by
  induction ordered generalizing second with
  | nil =>
      cases again
      rfl
  | cons registered _ _ inBelow inOthers =>
      cases again with
      | cons found below others =>
          rw [registered, Option.some.injEq] at found
          subst found
          rw [inBelow below, inOthers others]

theorem walks_of_finished {fuel : Nat} {stack : List NodeHash}
    (finished : (tree.walkWithin fuel stack).length < fuel) :
    tree.Walks stack (tree.walkWithin fuel stack) := by
  induction fuel generalizing stack with
  | zero => cases finished
  | succ fuel induction =>
      cases stack with
      | nil =>
          rw [walkWithin_nil]
          exact .finish
      | cons head rest =>
          rw [walkWithin, List.length_cons] at finished
          rw [walkWithin]
          exact .meet (induction (Nat.lt_of_succ_lt_succ finished))

/-- A walk is done with the first nodes of its stack before it meets the others. -/
theorem walkWithin_append {fuel : Nat} {first second : List NodeHash}
    (finished : (tree.walkWithin fuel (first ++ second)).length < fuel) :
    tree.walkWithin fuel (first ++ second) =
      tree.walkWithin fuel first ++ tree.walkWithin fuel second := by
  induction fuel generalizing first with
  | zero => cases finished
  | succ fuel induction =>
      cases first with
      | nil => rw [walkWithin_nil, List.nil_append, List.nil_append]
      | cons head rest =>
          rw [List.cons_append, walkWithin, ← List.append_assoc,
            List.length_cons] at finished
          have finished := Nat.lt_of_succ_lt_succ finished
          have split := induction finished
          have secondFinished : (tree.walkWithin fuel second).length < fuel := by
            rw [split, List.length_append] at finished
            omega
          rw [List.cons_append, walkWithin, ← List.append_assoc, split, walkWithin,
            walkWithin_stable tree secondFinished (Nat.le_succ fuel),
            List.cons_append]

namespace WellFormed

variable (wellFormed : tree.WellFormed)
include wellFormed

/-- Pre-order is the order in which a walk meets the nodes. -/
theorem preorder_of_finished {fuel : Nat} {stack : List NodeHash}
    (registered : ∀ hash ∈ stack, ∃ node, tree.nodes[hash]? = some node)
    (finished : (tree.walkWithin fuel stack).length < fuel) :
    tree.Preorder stack (tree.walkWithin fuel stack) := by
  induction fuel generalizing stack with
  | zero => cases finished
  | succ fuel induction =>
      cases stack with
      | nil =>
          rw [walkWithin_nil]
          exact .nil
      | cons head rest =>
          obtain ⟨node, isHead⟩ := registered head List.mem_cons_self
          rw [walkWithin, childrenOf_eq isHead, List.length_cons] at finished
          have finished := Nat.lt_of_succ_lt_succ finished
          have split := walkWithin_append finished
          rw [split, List.length_append] at finished
          rw [walkWithin, childrenOf_eq isHead, split]
          refine .cons isHead (induction ?_ (by omega)) (induction ?_ (by omega))
          · intro child member
            obtain ⟨childNode, found, _⟩ := wellFormed.linked isHead member
            exact ⟨childNode, found⟩
          · exact fun hash member =>
              registered hash (List.mem_cons_of_mem _ member)

variable {top : NodeHash} {node : Node} (registered : tree.nodes[top]? = some node)
include registered

omit wellFormed in
theorem descendants_eq :
    tree.descendants top = tree.walkWithin (tree.nodes.size + 1) [top] := by
  rw [descendants, contains_eq_isSome, registered]
  rfl

theorem nodup_descendants : (tree.descendants top).Nodup := by
  rw [descendants_eq registered]
  exact wellFormed.walkWithin_nodup (List.pairwise_singleton _ _)

theorem within_of_mem_descendants {hash : NodeHash}
    (member : hash ∈ tree.descendants top) : tree.Within top hash := by
  rw [descendants_eq registered] at member
  obtain ⟨other, isTop, within⟩ := wellFormed.agreeing.walkWithin_sound member
  exact List.mem_singleton.mp isTop ▸ within

theorem length_descendants_lt :
    (tree.descendants top).length < tree.nodes.size + 1 := by
  refine Nat.lt_succ_of_le (tree.length_le_size
    (wellFormed.nodup_descendants registered) fun hash member => ?_)
  obtain ⟨found, isFound⟩ :=
    (wellFormed.within_of_mem_descendants registered member).registered registered
  rw [isFound]
  rfl

theorem mem_descendants_iff {hash : NodeHash} :
    hash ∈ tree.descendants top ↔ tree.Within top hash := by
  refine ⟨wellFormed.within_of_mem_descendants registered, fun within => ?_⟩
  obtain ⟨found, isFound⟩ := within.registered registered
  have finished := wellFormed.length_descendants_lt registered
  rw [descendants_eq registered] at finished ⊢
  exact wellFormed.walkWithin_complete finished (List.mem_singleton_self top) isFound
    within

theorem walks_descendants : tree.Walks [top] (tree.descendants top) := by
  have finished := wellFormed.length_descendants_lt registered
  rw [descendants_eq registered] at finished ⊢
  exact walks_of_finished finished

theorem preorder_descendants : tree.Preorder [top] (tree.descendants top) := by
  have finished := wellFormed.length_descendants_lt registered
  rw [descendants_eq registered] at finished ⊢
  exact wellFormed.preorder_of_finished
    (fun hash member => ⟨node, List.mem_singleton.mp member ▸ registered⟩) finished

end WellFormed

/-- What the check of a tree finds at a node. -/
def lacking (tree : Tree) (hash : NodeHash) : Option (NodeHash × Node) :=
  match tree.nodes[hash]? with
  | some node =>
    if node.arity = .single ∧ node.children = [] then some (hash, node) else none
  | none => none

theorem validate_eq (tree : Tree) :
    tree.validate =
      match (tree.descendants tree.root).filterMap tree.lacking with
      | [] => .ok ()
      | (hash, node) :: _ =>
        .error (.missingChild hash node.name node.kind.label) :=
  rfl

namespace WellFormed

variable (wellFormed : tree.WellFormed)
include wellFormed

theorem perm_keys : (tree.descendants tree.root).Perm tree.nodes.keys := by
  rw [List.perm_ext_iff_of_nodup wellFormed.descendants_nodup
    Std.ExtTreeMap.nodup_keys]
  intro hash
  rw [Std.ExtTreeMap.mem_keys, Std.ExtTreeMap.mem_iff_isSome_getElem?]
  refine ⟨wellFormed.registered_of_descendant, fun isSome => ?_⟩
  obtain ⟨node, registered⟩ := Option.isSome_iff_exists.mp isSome
  exact wellFormed.mem_descendants registered

theorem lacks_iff {hash : NodeHash} {node : Node} :
    tree.Lacks hash node ↔
      tree.nodes[hash]? = some node ∧ node.arity = .single ∧ node.children = [] := by
  refine and_congr_right fun registered => and_congr_left fun _ => ?_
  rw [Node.arity, NodeKind.arity_eq_single_iff, ← NodeKind.isRoot_iff,
    wellFormed.isRoot_iff registered]

theorem lacking_eq_some_iff {hash other : NodeHash} {node : Node} :
    tree.lacking hash = some (other, node) ↔ other = hash ∧ tree.Lacks hash node := by
  rw [wellFormed.lacks_iff, lacking]
  cases registered : tree.nodes[hash]? with
  | none => simp
  | some found =>
      simp only [Option.ite_none_right_eq_some, Option.some.injEq, Prod.mk.injEq]
      constructor
      · rintro ⟨lacks, rfl, rfl⟩
        exact ⟨rfl, rfl, lacks⟩
      · rintro ⟨rfl, rfl, lacks⟩
        exact ⟨lacks, rfl, rfl⟩

theorem lacking_eq_none_iff {hash : NodeHash} :
    tree.lacking hash = none ↔ ∀ node, ¬ tree.Lacks hash node := by
  rw [Option.eq_none_iff_forall_ne_some]
  constructor
  · intro nothing node lacks
    exact nothing _ (wellFormed.lacking_eq_some_iff.mpr ⟨rfl, lacks⟩)
  · rintro complete ⟨_, node⟩ found
    exact complete node (wellFormed.lacking_eq_some_iff.mp found).2

theorem validate_eq_ok_iff_forall :
    tree.validate = .ok () ↔ ∀ hash node, ¬ tree.Lacks hash node := by
  rw [wellFormed.validate_eq_ok_iff]
  refine forall₂_congr fun hash node => ?_
  rw [wellFormed.lacks_iff, not_and, not_and]

/-- The first node that lacks a child is reported. -/
theorem validate_eq_error_iff {cause : ValidationError} :
    tree.validate = .error cause ↔ ∃ before hash node after,
      tree.descendants tree.root = before ++ hash :: after ∧
      tree.Lacks hash node ∧
      (∀ other ∈ before, ∀ otherNode, ¬ tree.Lacks other otherNode) ∧
      cause = .missingChild hash node.name node.kind.label := by
  constructor
  · intro failed
    rw [validate_eq] at failed
    split at failed
    · cases failed
    · next hash node _ found =>
        cases failed
        obtain ⟨before, other, after, split, complete, isFound, _⟩ :=
          List.filterMap_eq_cons_iff.mp found
        obtain ⟨rfl, lacks⟩ := wellFormed.lacking_eq_some_iff.mp isFound
        exact ⟨before, hash, node, after, split, lacks, fun earlier member =>
          wellFormed.lacking_eq_none_iff.mp (complete earlier member), rfl⟩
  · rintro ⟨before, hash, node, after, split, lacks, complete, rfl⟩
    have nothing : before.filterMap tree.lacking = [] :=
      List.filterMap_eq_nil_iff.mpr fun other member =>
        wellFormed.lacking_eq_none_iff.mpr (complete other member)
    rw [validate_eq, split, List.filterMap_append, nothing, List.nil_append,
      List.filterMap_cons_some (wellFormed.lacking_eq_some_iff.mpr ⟨rfl, lacks⟩)]

end WellFormed

/-- The walk of a node comes to an end and has then listed its subtree in pre-order
without repetitions, which for the root is the whole registry.  A tree passes the
check if the root and each decorator have a child, and else the first in this order
that has none is reported. -/
theorem descendants_exact (wellFormed : tree.WellFormed) :
    (∀ (top : NodeHash) (node : Node), tree.nodes[top]? = some node →
      (∀ hashes, tree.Walks [top] hashes ↔ hashes = tree.descendants top) ∧
      (∀ hashes, tree.Preorder [top] hashes ↔ hashes = tree.descendants top) ∧
      (tree.descendants top).Nodup) ∧
    (tree.descendants tree.root).Perm tree.nodes.keys ∧
    (tree.validate = .ok () ↔ ∀ hash node, ¬ tree.Lacks hash node) ∧
    ∀ cause, tree.validate = .error cause ↔ ∃ before hash node after,
      tree.descendants tree.root = before ++ hash :: after ∧
      tree.Lacks hash node ∧
      (∀ other ∈ before, ∀ otherNode, ¬ tree.Lacks other otherNode) ∧
      cause = .missingChild hash node.name node.kind.label := by
  refine ⟨fun top node registered => ⟨fun hashes => ?_, fun hashes => ?_,
      wellFormed.nodup_descendants registered⟩,
    wellFormed.perm_keys, wellFormed.validate_eq_ok_iff_forall,
    fun _ => wellFormed.validate_eq_error_iff⟩
  · have walks := wellFormed.walks_descendants registered
    exact ⟨fun other => other.unique walks, fun same => same ▸ walks⟩
  · have ordered := wellFormed.preorder_descendants registered
    exact ⟨fun other => other.unique ordered, fun same => same ▸ ordered⟩

/-- A sentry who has no orders yet, behind one who has. -/
def sentries : Subtree :=
  { name := "sentries", hash := some ⟨"sentries-1"⟩, kind := .selector
    children :=
      [{ name := "first", hash := some ⟨"first-1"⟩, kind := .inverter
         children :=
          [{ name := "order", hash := some ⟨"order-1"⟩, kind := .command "mark_a" }] },
       { name := "second", hash := some ⟨"second-1"⟩, kind := .succeeder },
       { name := "third", hash := some ⟨"third-1"⟩, kind := .failer }] }

/-- The second sentry is the first without orders. -/
theorem sentries_listed :
    ∃ tree, camp.grown sentries = some tree ∧
      tree.Preorder [⟨"sentries-1"⟩] [⟨"sentries-1"⟩, ⟨"first-1"⟩, ⟨"order-1"⟩,
        ⟨"second-1"⟩, ⟨"third-1"⟩] ∧
      (tree.descendants tree.root).Perm tree.nodes.keys ∧
      ∃ before node after,
        tree.descendants tree.root = before ++ ⟨"second-1"⟩ :: after ∧
        tree.Lacks ⟨"second-1"⟩ node ∧
        ∀ other ∈ before, ∀ otherNode, ¬ tree.Lacks other otherNode := by
  have checked : (camp.grown sentries).any (fun tree => decide (
      tree.contains ⟨"sentries-1"⟩ = true ∧
      tree.descendants ⟨"sentries-1"⟩ = [⟨"sentries-1"⟩, ⟨"first-1"⟩, ⟨"order-1"⟩,
        ⟨"second-1"⟩, ⟨"third-1"⟩] ∧
      tree.validate =
        .error (.missingChild ⟨"second-1"⟩ "second" "Succeeder"))) = true := by
    decide +kernel
  obtain ⟨tree, settled, passed⟩ := (Option.any_eq_true _ _).mp checked
  obtain ⟨present, listed, failed⟩ := of_decide_eq_true passed
  obtain ⟨lists, keys, _, reports⟩ := descendants_exact (of_grown settled).1
  rw [contains_eq_isSome, Option.isSome_iff_exists] at present
  obtain ⟨node, registered⟩ := present
  obtain ⟨before, hash, found, after, split, lacks, complete, isCause⟩ :=
    (reports _).mp failed
  obtain ⟨rfl, _⟩ := ValidationError.missingChild.inj isCause
  exact ⟨tree, settled, ((lists _ node registered).2.1 _).mpr listed.symm, keys,
    before, found, after, split, lacks, complete⟩

end Tree

end BehaviorTree
