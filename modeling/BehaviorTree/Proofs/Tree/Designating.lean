import BehaviorTree.Proofs.Tree.Reordering
import BehaviorTree.Proofs.Tree.Swapping

/-!
# Designated children

A Parallel designates one of its children by index.  The changes of a child list
have the index follow the child: it stays with the child as long as that is
listed, goes on to a host that takes the slot of the child, and is cleared when
the child leaves.
-/

namespace BehaviorTree

namespace Node

/-- The child at the designated index. -/
def Designates (node : Node) (child : NodeHash) : Prop :=
  ∃ primary : UInt64, node.kind.primaryChild = some primary ∧
    node.children[primary.toNat]? = some child

/-- The designated index is that of the child.  In a list too long for an index
this does not yet make it the designated child. -/
def PointsAt (node : Node) (child : NodeHash) : Prop :=
  ∃ index : Nat, node.children[index]? = some child ∧
    node.kind.primaryChild = some index.toUInt64

/-- The index designated in `now` is that of the heir of the child designated in
`old`; there is none if the child has no heir, or if there was none. -/
structure Follows (old now : Node) (heir : NodeHash → Option NodeHash) : Prop where
  none : old.kind.primaryChild = .none → now.kind.primaryChild = .none
  goes : ∀ {child : NodeHash}, old.Designates child →
    (∃ other, heir child = some other ∧ now.PointsAt other) ∨
      heir child = .none ∧ now.kind.primaryChild = .none

/-- The child designated in `now` is the heir of the one designated in `old`, which
can be said of one change after the other. -/
structure Tracks (old now : Node) (heir : NodeHash → Option NodeHash) : Prop where
  none : old.kind.primaryChild = .none → now.kind.primaryChild = .none
  goes : ∀ {child : NodeHash}, old.Designates child →
    (∃ other, heir child = some other ∧ now.Designates other) ∨
      heir child = .none ∧ now.kind.primaryChild = .none

variable {node old middle now : Node} {index : Nat} {child other : NodeHash}
  {heir next : NodeHash → Option NodeHash}

namespace Designates

theorem mem (designates : node.Designates child) : child ∈ node.children :=
  designates.elim fun _ found => List.mem_of_getElem? found.2

theorem pointsAt (designates : node.Designates child) : node.PointsAt child := by
  obtain ⟨primary, designated, listed⟩ := designates
  exact ⟨primary.toNat, listed, by
    rw [designated, Nat.toUInt64_eq, UInt64.ofNat_toNat]⟩

theorem removeChild (designates : node.Designates child) (listed : node.children[index]? = some other)
    (different : child ≠ other) : (node.removeChild index).Designates child := by
  obtain ⟨primary, designated, found⟩ := designates
  have elsewhere : primary.toNat ≠ index := by
    rintro rfl
    rw [listed, Option.some.injEq] at found
    exact different found.symm
  rw [Designates, Node.removeChild, NodeKind.childRemoved,
    NodeKind.primaryChild_mapPrimary, designated, Option.bind_some,
    if_neg elsewhere]
  by_cases behind : index < primary.toNat
  · refine ⟨primary - 1, by rw [if_pos behind], ?_⟩
    rw [NodeKind.toNat_sub_one behind, List.getElem?_eraseIdx, if_neg (by omega),
      Nat.sub_add_cancel (Nat.one_le_of_lt behind), found]
  · refine ⟨primary, by rw [if_neg behind], ?_⟩
    rw [List.getElem?_eraseIdx, if_pos (by omega), found]

theorem clearedByRemoval (designates : node.Designates child)
    (distinct : node.children.Nodup)
    (listed : node.children[index]? = some child) :
    (node.removeChild index).kind.primaryChild = .none := by
  obtain ⟨primary, designated, found⟩ := designates
  obtain ⟨bound, _⟩ := List.getElem?_eq_some_iff.mp found
  have here : primary.toNat = index :=
    (List.getElem?_inj bound distinct).mp (found.trans listed.symm)
  rw [Node.removeChild, NodeKind.childRemoved, NodeKind.primaryChild_mapPrimary,
    designated, Option.bind_some, if_pos here]

theorem withChild (designates : node.Designates child) (index : Nat)
    (other : NodeHash) :
    (node.withChild index other).PointsAt child := by
  obtain ⟨primary, designated, found⟩ := designates
  obtain ⟨bound, _⟩ := List.getElem?_eq_some_iff.mp found
  rw [PointsAt, Node.withChild, NodeKind.withRoomAt,
    NodeKind.primaryChild_mapPrimary, designated, Option.bind_some]
  by_cases behind : index ≤ primary.toNat
  · refine ⟨primary.toNat + 1, ?_, ?_⟩
    · rw [List.getElem?_insertIdx_of_gt (by omega), Nat.add_sub_cancel, found]
    · rw [if_pos behind, Nat.toUInt64_eq, UInt64.ofNat_add, UInt64.ofNat_toNat]
      rfl
  · refine ⟨primary.toNat, ?_, ?_⟩
    · rw [List.getElem?_insertIdx_of_lt (by omega), found]
    · rw [if_neg behind, Nat.toUInt64_eq, UInt64.ofNat_toNat]

theorem hostChild (designates : node.Designates child) (different : child ≠ other)
    (listed : node.children[index]? = some other) (host : NodeHash) :
    (node.hostChild index host).Designates child := by
  obtain ⟨primary, designated, found⟩ := designates
  refine ⟨primary, designated, ?_⟩
  have elsewhere : index ≠ primary.toNat := by
    rintro rfl
    rw [listed, Option.some.injEq] at found
    exact different found.symm
  rw [Node.hostChild, List.getElem?_set_ne elsewhere, found]

theorem host (designates : node.Designates child)
    (distinct : node.children.Nodup)
    (listed : node.children[index]? = some child) (host : NodeHash) :
    (node.hostChild index host).Designates host := by
  obtain ⟨primary, designated, found⟩ := designates
  obtain ⟨bound, _⟩ := List.getElem?_eq_some_iff.mp found
  have here : primary.toNat = index :=
    (List.getElem?_inj bound distinct).mp (found.trans listed.symm)
  refine ⟨primary, designated, ?_⟩
  rw [Node.hostChild, here, List.getElem?_set_self (here ▸ bound)]

theorem relabel (designates : node.Designates child)
    (rename : NodeHash → NodeHash) (parent : Option NodeHash) :
    (node.relabel rename parent).Designates (rename child) := by
  obtain ⟨primary, designated, found⟩ := designates
  exact ⟨primary, designated, by
    rw [Node.relabel, List.getElem?_map, found, Option.map_some]⟩

/-- A child that moves takes the designation along. -/
theorem moveChild (designates : node.Designates child)
    (distinct : node.children.Nodup)
    (listed : node.children[index]? = some other) {place : Nat}
    (fits : place < node.children.length) :
    (node.moveChild index place other).PointsAt child := by
  by_cases isMoved : child = other
  · subst isMoved
    obtain ⟨primary, designated, found⟩ := designates
    obtain ⟨bound, _⟩ := List.getElem?_eq_some_iff.mp found
    have here : primary.toNat = index :=
      (List.getElem?_inj bound distinct).mp (found.trans listed.symm)
    refine ⟨place, ?_, ?_⟩
    · have room : place ≤ (node.children.eraseIdx index).length := by
        rw [List.length_eraseIdx_of_lt (here ▸ bound)]
        omega
      rw [Node.moveChild, List.getElem?_insertIdx_self, if_pos room]
    · rw [Node.moveChild, NodeKind.childMoved, NodeKind.primaryChild_mapPrimary,
        designated, Option.bind_some, if_pos here]
  · have removed := designates.removeChild listed isMoved
    have elsewhere : ∀ primary, node.kind.primaryChild = some primary →
        primary.toNat ≠ index := by
      rintro primary isPrimary rfl
      obtain ⟨found, designated, foundListed⟩ := designates
      rw [isPrimary, Option.some.injEq] at designated
      rw [← designated, listed, Option.some.injEq] at foundListed
      exact isMoved foundListed.symm
    have same : node.moveChild index place other =
        (node.removeChild index).withChild place other := by
      rw [Node.moveChild, NodeKind.childMoved_eq place elsewhere]
      rfl
    rw [same]
    exact removed.withChild place other

/-- A child that trades places with a sibling takes the designation along. -/
theorem swapChildren (designates : node.Designates child) {first second : NodeHash}
    {firstIndex secondIndex : Nat} (distinct : node.children.Nodup)
    (firstListed : node.children[firstIndex]? = some first)
    (secondListed : node.children[secondIndex]? = some second) :
    (node.swapChildren firstIndex secondIndex first second).PointsAt child := by
  obtain ⟨primary, designated, found⟩ := designates
  obtain ⟨firstBound, _⟩ := List.getElem?_eq_some_iff.mp firstListed
  obtain ⟨secondBound, _⟩ := List.getElem?_eq_some_iff.mp secondListed
  rw [PointsAt, Node.swapChildren, NodeKind.childrenSwapped,
    NodeKind.primaryChild_mapPrimary, designated, Option.bind_some,
    Tree.set_set_eq_map_swap distinct firstListed secondListed]
  by_cases atFirst : primary.toNat = firstIndex
  · rw [atFirst, firstListed, Option.some.injEq] at found
    refine ⟨secondIndex, ?_, by rw [if_pos atFirst]⟩
    rw [List.getElem?_map, secondListed, Option.map_some, Equiv.swap_apply_right,
      found]
  by_cases atSecond : primary.toNat = secondIndex
  · rw [atSecond, secondListed, Option.some.injEq] at found
    refine ⟨firstIndex, ?_, by rw [if_neg atFirst, if_pos atSecond]⟩
    rw [List.getElem?_map, firstListed, Option.map_some, Equiv.swap_apply_left,
      found]
  · have notFirst : child ≠ first := by
      rintro rfl
      exact atFirst ((List.getElem?_inj firstBound distinct).mp
        (firstListed.trans found.symm)).symm
    have notSecond : child ≠ second := by
      rintro rfl
      exact atSecond ((List.getElem?_inj secondBound distinct).mp
        (secondListed.trans found.symm)).symm
    refine ⟨primary.toNat, ?_, ?_⟩
    · rw [List.getElem?_map, found, Option.map_some,
        Equiv.swap_apply_of_ne_of_ne notFirst notSecond]
    · rw [if_neg atFirst, if_neg atSecond, Nat.toUInt64_eq, UInt64.ofNat_toNat]

end Designates

namespace Tracks

theorem refl (node : Node) : node.Tracks node some where
  none := fun cleared => cleared
  goes := fun designates => .inl ⟨_, rfl, designates⟩

theorem congr (tracks : old.Tracks now heir)
    (same : ∀ child ∈ old.children, heir child = next child) :
    old.Tracks now next where
  none := tracks.none
  goes := by
    intro child designates
    rw [← same child designates.mem]
    exact tracks.goes designates

theorem trans (before : old.Tracks middle heir) (after : middle.Tracks now next) :
    old.Tracks now fun child => (heir child).bind next where
  none := fun cleared => after.none (before.none cleared)
  goes := by
    intro child designates
    rcases before.goes designates with ⟨other, isHeir, still⟩ | ⟨noHeir, cleared⟩
    · simp only [isHeir, Option.bind_some]
      exact after.goes still
    · simp only [noHeir, Option.bind_none]
      exact .inr ⟨trivial, after.none cleared⟩

theorem reparent (tracks : old.Tracks now heir) (parent : Option NodeHash) :
    old.Tracks { now with parent } heir :=
  ⟨tracks.none, tracks.goes⟩

theorem removeChild (distinct : node.children.Nodup)
    (listed : node.children[index]? = some other) :
    node.Tracks (node.removeChild index)
      fun child => if other = child then .none else some child where
  none := by
    intro cleared
    rw [Node.removeChild, NodeKind.childRemoved, NodeKind.primaryChild_mapPrimary,
      cleared, Option.bind_none]
  goes := by
    intro child designates
    by_cases same : other = child
    · subst same
      exact .inr ⟨if_pos rfl, designates.clearedByRemoval distinct listed⟩
    · exact .inl ⟨child, if_neg same,
        designates.removeChild listed (Ne.symm same)⟩

theorem hostChild (distinct : node.children.Nodup)
    (listed : node.children[index]? = some other) (host : NodeHash) :
    node.Tracks (node.hostChild index host)
      fun child => if other = child then some host else some child where
  none := fun cleared => cleared
  goes := by
    intro child designates
    by_cases same : other = child
    · subst same
      exact .inl ⟨host, if_pos rfl, designates.host distinct listed host⟩
    · exact .inl ⟨child, if_neg same,
        designates.hostChild (Ne.symm same) listed host⟩

theorem relabel (node : Node) (rename : NodeHash → NodeHash)
    (parent : Option NodeHash) :
    node.Tracks (node.relabel rename parent) fun child => some (rename child) where
  none := fun cleared => cleared
  goes := fun designates => .inl ⟨_, rfl, designates.relabel rename parent⟩

end Tracks

namespace Follows

theorem pointsAt (follows : old.Follows now heir) (designates : old.Designates child)
    (isHeir : heir child = some other) : now.PointsAt other := by
  rcases follows.goes designates with ⟨found, foundHeir, pointsAt⟩ | ⟨noHeir, _⟩
  · rw [isHeir, Option.some.injEq] at foundHeir
    exact foundHeir ▸ pointsAt
  · rw [isHeir] at noHeir
    cases noHeir

theorem cleared (follows : old.Follows now heir) (designates : old.Designates child)
    (noHeir : heir child = .none) : now.kind.primaryChild = .none := by
  rcases follows.goes designates with ⟨found, foundHeir, _⟩ | ⟨_, cleared⟩
  · rw [noHeir] at foundHeir
    cases foundHeir
  · exact cleared

theorem of_tracks (tracks : old.Tracks now heir) : old.Follows now heir where
  none := tracks.none
  goes := by
    intro child designates
    refine (tracks.goes designates).imp_left ?_
    rintro ⟨other, isHeir, still⟩
    exact ⟨other, isHeir, still.pointsAt⟩

theorem congr (follows : old.Follows now heir)
    (same : ∀ child ∈ old.children, heir child = next child) :
    old.Follows now next where
  none := follows.none
  goes := by
    intro child designates
    rw [← same child designates.mem]
    exact follows.goes designates

theorem withChild (tracks : old.Tracks middle heir) (index : Nat)
    (other : NodeHash) : old.Follows (middle.withChild index other) heir := by
  have stillNone : middle.kind.primaryChild = .none →
      (middle.withChild index other).kind.primaryChild = .none := by
    intro cleared
    rw [Node.withChild, NodeKind.withRoomAt, NodeKind.primaryChild_mapPrimary,
      cleared, Option.bind_none]
  refine ⟨fun cleared => stillNone (tracks.none cleared), fun designates => ?_⟩
  rcases tracks.goes designates with ⟨found, isHeir, still⟩ | ⟨noHeir, cleared⟩
  · exact .inl ⟨found, isHeir, still.withChild index other⟩
  · exact .inr ⟨noHeir, stillNone cleared⟩

theorem reparent (follows : old.Follows now heir) (parent : Option NodeHash) :
    old.Follows { now with parent } heir :=
  ⟨follows.none, follows.goes⟩

theorem replaceChild (distinct : node.children.Nodup)
    (listed : node.children[index]? = some other) (newcomer : NodeHash) :
    node.Follows (node.replaceChild index newcomer)
      fun child => if other = child then .none else some child := by
  obtain ⟨bound, _⟩ := List.getElem?_eq_some_iff.mp listed
  rw [replaceChild_eq newcomer bound]
  exact .withChild (.removeChild distinct listed) index newcomer

theorem moveChild (distinct : node.children.Nodup)
    (listed : node.children[index]? = some other) {place : Nat}
    (fits : place < node.children.length) :
    node.Follows (node.moveChild index place other) some := by
  refine ⟨fun cleared => ?_, fun designates =>
    .inl ⟨_, rfl, designates.moveChild distinct listed fits⟩⟩
  rw [Node.moveChild, NodeKind.childMoved, NodeKind.primaryChild_mapPrimary,
    cleared, Option.bind_none]

theorem swapChildren {first second : NodeHash} {firstIndex secondIndex : Nat}
    (distinct : node.children.Nodup)
    (firstListed : node.children[firstIndex]? = some first)
    (secondListed : node.children[secondIndex]? = some second) :
    node.Follows (node.swapChildren firstIndex secondIndex first second) some := by
  refine ⟨fun cleared => ?_, fun designates =>
    .inl ⟨_, rfl, designates.swapChildren distinct firstListed secondListed⟩⟩
  rw [Node.swapChildren, NodeKind.childrenSwapped,
    NodeKind.primaryChild_mapPrimary, cleared, Option.bind_none]

end Follows

end Node

end BehaviorTree
