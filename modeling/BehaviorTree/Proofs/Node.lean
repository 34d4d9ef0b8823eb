import Mathlib.Data.List.InsertIdx
import BehaviorTree.Tree

/-!
# Nodes under changes of the child list

The hooks that follow a Parallel's designated child touch nothing but that
designation, so they keep the arity of a kind and never make or unmake a Root.
The same goes for the changes of a node that apply them.
-/

namespace BehaviorTree

theorem Arity.allows_of_le {arity : Arity} {fewer count : Nat}
    (less : fewer ≤ count) (allowed : arity.allows count = true) :
    arity.allows fewer = true := by
  cases arity with
  | leaf =>
      simp only [allows, beq_iff_eq] at allowed ⊢
      omega
  | single =>
      simp only [allows, decide_eq_true_eq] at allowed ⊢
      omega
  | many => rfl

namespace NodeKind

theorem isRoot_iff {kind : NodeKind} : kind.isRoot = true ↔ kind = .root := by
  cases kind <;> simp [isRoot]

theorem mapPrimary_congr {kind : NodeKind} {first second : UInt64 → Option UInt64}
    (same : ∀ primary, kind.primaryChild = some primary →
      first primary = second primary) :
    kind.mapPrimary first = kind.mapPrimary second := by
  cases kind with
  | parallel spec =>
      have bound : spec.primaryChild.bind first = spec.primaryChild.bind second :=
        Option.bind_congr same
      rw [mapPrimary, mapPrimary, bound]
  | _ => rfl

theorem mapPrimary_eq_self {kind : NodeKind} {change : UInt64 → Option UInt64}
    (keeps : ∀ primary, kind.primaryChild = some primary →
      change primary = some primary) : kind.mapPrimary change = kind := by
  rw [mapPrimary_congr keeps]
  cases kind with
  | parallel spec => rw [mapPrimary, Option.bind_fun_some]
  | _ => rfl

theorem mapPrimary_mapPrimary (kind : NodeKind)
    (first second : UInt64 → Option UInt64) :
    (kind.mapPrimary first).mapPrimary second =
      kind.mapPrimary fun primary => (first primary).bind second := by
  cases kind with
  | parallel spec => simp [mapPrimary, Option.bind_assoc]
  | _ => rfl

theorem primaryChild_mapPrimary (kind : NodeKind)
    (change : UInt64 → Option UInt64) :
    (kind.mapPrimary change).primaryChild = kind.primaryChild.bind change := by
  cases kind <;> rfl

section Hooks

variable (kind : NodeKind) (change : UInt64 → Option UInt64)
  (index first second : Nat)

@[simp] theorem arity_mapPrimary :
    (kind.mapPrimary change).arity = kind.arity := by
  cases kind <;> rfl

@[simp] theorem isRoot_mapPrimary :
    (kind.mapPrimary change).isRoot = kind.isRoot := by
  cases kind <;> rfl

@[simp] theorem arity_withRoomAt : (kind.withRoomAt index).arity = kind.arity :=
  arity_mapPrimary kind _

@[simp] theorem isRoot_withRoomAt :
    (kind.withRoomAt index).isRoot = kind.isRoot :=
  isRoot_mapPrimary kind _

@[simp] theorem arity_childRemoved :
    (kind.childRemoved index).arity = kind.arity :=
  arity_mapPrimary kind _

@[simp] theorem isRoot_childRemoved :
    (kind.childRemoved index).isRoot = kind.isRoot :=
  isRoot_mapPrimary kind _

@[simp] theorem arity_childrenSwapped :
    (kind.childrenSwapped first second).arity = kind.arity :=
  arity_mapPrimary kind _

@[simp] theorem isRoot_childrenSwapped :
    (kind.childrenSwapped first second).isRoot = kind.isRoot :=
  isRoot_mapPrimary kind _

@[simp] theorem arity_childReplaced :
    (kind.childReplaced index).arity = kind.arity := by
  simp [childReplaced]

@[simp] theorem isRoot_childReplaced :
    (kind.childReplaced index).isRoot = kind.isRoot := by
  simp [childReplaced]

@[simp] theorem arity_childMoved :
    (kind.childMoved first second).arity = kind.arity :=
  arity_mapPrimary kind _

@[simp] theorem isRoot_childMoved :
    (kind.childMoved first second).isRoot = kind.isRoot :=
  isRoot_mapPrimary kind _

end Hooks

theorem toNat_sub_one {index : Nat} {primary : UInt64}
    (behind : index < primary.toNat) :
    (primary - 1).toNat = primary.toNat - 1 :=
  UInt64.toNat_sub_of_le _ _ (UInt64.le_iff_toNat_le.mpr (Nat.one_le_of_lt behind))

theorem childAdded_eq_none_iff {kind : NodeKind} {index : Nat} :
    kind.childAdded index = none ↔
      ∃ primary, kind.primaryChild = some primary ∧ index ≤ primary.toNat ∧
        primary.toNat + 1 = UInt64.size := by
  have overflows : kind.overflowsAt index = true ↔
      ∃ primary, kind.primaryChild = some primary ∧ index ≤ primary.toNat ∧
        primary.toNat + 1 = UInt64.size := by
    rw [overflowsAt, Option.any_eq_true]
    simp only [decide_eq_true_eq]
  rw [childAdded, ← overflows]
  split <;> simp_all

theorem childAdded_eq_some {kind : NodeKind} {index : Nat}
    (room : kind.overflowsAt index = false) :
    kind.childAdded index = some (kind.withRoomAt index) := by
  rw [childAdded, room, if_neg Bool.false_ne_true]

/-- A child that leaves makes room for another one, if its index is a word or does
not lie beyond that of the other one. -/
theorem overflowsAt_childRemoved (kind : NodeKind) {source target : Nat}
    (within : source < UInt64.size ∨ source ≤ target) :
    (kind.childRemoved source).overflowsAt target = false := by
  rw [overflowsAt, childRemoved, primaryChild_mapPrimary]
  cases kind.primaryChild with
  | none => rfl
  | some primary =>
      have bound := primary.toNat_lt_size
      rw [Option.bind_some]
      split
      · rfl
      split
      · next behind =>
          simp only [Option.any_some, decide_eq_false_iff_not, toNat_sub_one behind]
          omega
      · simp only [Option.any_some, decide_eq_false_iff_not]
        omega

theorem childAdded_childRemoved_self (kind : NodeKind) (index : Nat) :
    (kind.childRemoved index).childAdded index = some (kind.childReplaced index) :=
  childAdded_eq_some (kind.overflowsAt_childRemoved (.inr (Nat.le_refl _)))

end NodeKind

namespace Node

/-- The node with `child` inserted at `index`, as long as no index runs over. -/
def withChild (node : Node) (index : Nat) (child : NodeHash) : Node :=
  { node with
    children := node.children.insertIdx index child
    kind := node.kind.withRoomAt index }

theorem insertChild_eq (node : Node) (index : Nat) (child : NodeHash) :
    node.insertChild index child =
      if node.kind.overflowsAt index then none else some (node.withChild index child) := by
  rw [insertChild, NodeKind.childAdded]
  split <;> rfl

/-- Two versions of one node, which differ in neither arity nor rootness. -/
structure Alike (old new : Node) : Prop where
  hash : new.hash = old.hash
  isRoot : new.kind.isRoot = old.kind.isRoot
  arity : new.arity = old.arity

variable (node : Node) (index target : Nat) (child other : NodeHash)

theorem Alike.refl : node.Alike node := ⟨rfl, rfl, rfl⟩

theorem alike_withChild : node.Alike (node.withChild index child) :=
  ⟨rfl, by simp [withChild], by simp [arity, withChild]⟩

theorem alike_removeChild : node.Alike (node.removeChild index) :=
  ⟨rfl, by simp [removeChild], by simp [arity, removeChild]⟩

theorem alike_replaceChild : node.Alike (node.replaceChild index child) :=
  ⟨rfl, by simp [replaceChild], by simp [arity, replaceChild]⟩

theorem alike_moveChild : node.Alike (node.moveChild index target child) :=
  ⟨rfl, by simp [moveChild], by simp [arity, moveChild]⟩

theorem alike_swapChildren :
    node.Alike (node.swapChildren index target child other) :=
  ⟨rfl, by simp [swapChildren], by simp [arity, swapChildren]⟩

theorem replaceChild_eq {node : Node} {index : Nat} (child : NodeHash)
    (bound : index < node.children.length) :
    node.replaceChild index child =
      (node.removeChild index).withChild index child := by
  simp only [replaceChild, removeChild, withChild, NodeKind.childReplaced,
    List.insertIdx_eraseIdx_self (Nat.ne_of_lt bound)]

end Node

end BehaviorTree
