import BehaviorTree.Proofs.Tree.Adding

/-!
# Nodes that move

A node that was taken out and registered again stands at its new place with
everything below it, under other hashes perhaps.  In a tree whose hashes have its
scope it keeps them all.
-/

namespace BehaviorTree

namespace Tree

/-- `after` is `base` with the nodes at and below `hash`, which stand there as they
did in `tree`, under the hashes that `rename` gives them and below `parent`. -/
structure Carried (tree base after : Tree) (hash parent top : NodeHash)
    (rename : NodeHash → NodeHash) : Prop where
  same : after = { base with nodes := after.nodes, minter := after.minter }
  stays : ∀ {other : NodeHash} {node : Node}, base.nodes[other]? = some node →
    after.nodes[other]? = some node
  top : rename hash = top
  elsewhere : ∀ {other : NodeHash}, ¬ tree.Within hash other →
    rename other = other
  nodes : ∀ {other : NodeHash} {old : Node}, tree.Within hash other →
    tree.nodes[other]? = some old → after.nodes[rename other]? = some
      (old.relabel rename
        (if other = hash then some parent else old.parent.map rename))
  fresh : ∀ {other : NodeHash} {old : Node}, tree.Within hash other →
    tree.nodes[other]? = some old → base.nodes[rename other]? = none
  only : ∀ {other : NodeHash} {node : Node}, after.nodes[other]? = some node →
    base.nodes[other]? = some node ∨
      ∃ old, rename old = other ∧ tree.Within hash old
  kept : ∀ {id : TreeId}, tree.ScopedTo id →
    (∀ other, rename other = other) ∧ after.minter = base.minter

namespace Carried

variable {tree base after : Tree} {hash parent top : NodeHash}
  {rename : NodeHash → NodeHash}
  (carried : tree.Carried base after hash parent top rename) {own : TreeId}
  (scopedTo : tree.ScopedTo own)
include carried scopedTo

theorem nodes_within {other : NodeHash} {old : Node}
    (within : tree.Within hash other) (registered : tree.nodes[other]? = some old) :
    after.nodes[other]? = some
      { old with parent := if other = hash then some parent else old.parent } := by
  have stays : rename = fun other => other := funext (carried.kept scopedTo).1
  have now := carried.nodes within registered
  rwa [stays, Node.relabel, List.map_id', Option.map_id'] at now

theorem nodes_outside {other : NodeHash} (outside : ¬ tree.Within hash other) :
    after.nodes[other]? = base.nodes[other]? := by
  cases found : base.nodes[other]? with
  | some node => exact carried.stays found
  | none =>
      cases now : after.nodes[other]? with
      | none => rfl
      | some node =>
          rcases carried.only now with present | ⟨old, renamed, within⟩
          · rw [found] at present
            cases present
          · rw [(carried.kept scopedTo).1 old] at renamed
            exact (outside (renamed ▸ within)).elim

end Carried

namespace WellFormed

variable {tree : Tree} (wellFormed : tree.WellFormed)
include wellFormed

theorem hash_of_cloneSubtree {hash : NodeHash} {subtree : Subtree}
    (cloned : tree.cloneSubtree hash = some subtree) :
    subtree.hash = some hash := by
  rw [cloneSubtree] at cloned
  cases depth : tree.nodes.size with
  | zero =>
      rw [depth] at cloned
      cases cloned
  | succ below =>
      rw [depth] at cloned
      obtain ⟨node, registered, rfl⟩ := node_of_cloneWithin cloned
      exact congrArg some (wellFormed.keyed registered)

/-- A clone lists the hashes of the nodes that were cloned. -/
theorem exists_hints {hash : NodeHash} {subtree : Subtree}
    (cloned : tree.cloneSubtree hash = some subtree) :
    ∃ olds : List NodeHash, subtree.hints = olds.map some ∧ olds.Nodup ∧
      ∀ other ∈ olds, tree.Within hash other ∧
        ∃ node, tree.nodes[other]? = some node := by
  obtain ⟨olds, hinted⟩ := Subtree.exists_map_some fun hint member =>
    (wellFormed.within_of_hints cloned hint member).imp fun _ found => found.1
  refine ⟨olds, hinted, ?_, fun other member => ?_⟩
  · have distinct := wellFormed.nodup_hints cloned
    rw [hinted] at distinct
    exact .of_map _ distinct
  · have isHint : some other ∈ subtree.hints := by
      rw [hinted]
      exact List.mem_map_of_mem member
    obtain ⟨found, same, within, registered⟩ :=
      wellFormed.within_of_hints cloned _ isHint
    obtain rfl := Option.some.inj same
    exact ⟨within, registered⟩

theorem suits_of_clone {id : TreeId} (scopedTo : tree.ScopedTo id)
    {base : Tree} (sameId : base.id = tree.id) {hash : NodeHash}
    (free : ∀ {other : NodeHash}, tree.Within hash other →
      base.nodes[other]? = none) {subtree : Subtree}
    (cloned : tree.cloneSubtree hash = some subtree) :
    base.Suits subtree.hints := by
  refine ⟨wellFormed.nodup_hints cloned, fun hint member => ?_⟩
  obtain ⟨other, same, within, node, found⟩ :=
    wellFormed.within_of_hints cloned hint member
  refine ⟨other, same, ?_, free within⟩
  rw [sameId, scopedTo.own]
  exact scopedTo.isScopedTo_of_registered found

/-- What was cloned and stands somewhere else was carried there. -/
theorem carried {base after : Tree} {hash parent top : NodeHash} {node : Node}
    (registered : tree.nodes[hash]? = some node) {subtree placed : Subtree}
    {hashes : List NodeHash}
    (cloned : tree.cloneSubtree hash = some subtree)
    (sameId : base.id = tree.id)
    (free : ∀ {other : NodeHash}, tree.Within hash other →
      base.nodes[other]? = none)
    (isPlaced : base.Placed after parent subtree placed hashes)
    (isTop : placed.hash = some top) :
    ∃ rename, tree.Carried base after hash parent top rename := by
  obtain ⟨olds, hinted, distinct, below⟩ := wellFormed.exists_hints cloned
  have length : olds.length = hashes.length := by
    rw [(free_of_allot isPlaced.allotted).1, hinted, List.length_map]
  obtain ⟨rename, mapped, elsewhere, relabelled⟩ := Subtree.exists_relabel
    isPlaced.unhashed hinted distinct isPlaced.hinted length
  have stands := isPlaced.stands
  rw [relabelled] at stands
  obtain ⟨level, reached⟩ := (wellFormed.rooted registered).exists_climb
  refine ⟨rename,
    { same := isPlaced.same, stays := isPlaced.kept, top := ?_, elsewhere := ?_
      nodes := ?_, fresh := ?_, only := ?_, kept := ?_ }⟩
  · rw [relabelled, Subtree.hash_relabel, wellFormed.hash_of_cloneSubtree cloned,
      Option.map_some, Option.some.injEq] at isTop
    exact isTop
  · intro other outside
    exact elsewhere other fun member => outside (below other member).1
  · intro other old within oldRegistered
    exact (wellFormed.relabelled cloned reached (Nat.le_add_left _ _) stands within
      oldRegistered).2
  · intro other old within oldRegistered
    exact (wellFormed.relabelled cloned reached (Nat.le_add_left _ _) stands within
      oldRegistered).1
  · intro other now found
    refine (isPlaced.mem_of_registered found).symm.imp_right fun member => ?_
    rw [← mapped] at member
    obtain ⟨old, oldMember, renamed⟩ := List.mem_map.mp member
    exact ⟨old, renamed, (below old oldMember).1⟩
  · intro own scopedTo
    obtain ⟨unchanged, sameMinter⟩ := isPlaced.of_suits
      (wellFormed.suits_of_clone scopedTo sameId free cloned)
    have same : olds.map rename = olds.map fun old => old := by
      rw [mapped, List.map_id']
      apply List.map_injective_iff.mpr fun _ _ => Option.some.inj
      rw [← isPlaced.hinted, unchanged, hinted]
    refine ⟨fun other => ?_, sameMinter⟩
    by_cases member : other ∈ olds
    · exact List.map_inj_left.mp same other member
    · exact elsewhere other fun isOld => member isOld

section Moving

variable {middle : Tree} {hash : NodeHash} {slot : Slot} {parentNode node : Node}
  {subtree : Subtree} (pruned : tree.Pruned middle hash slot parentNode)
  (same : middle = { tree with nodes := middle.nodes })
  (registered : tree.nodes[hash]? = some node)
  (cloned : tree.cloneSubtree hash = some subtree)
include pruned same registered cloned

theorem attach_carried {target : NodeHash} {targetNode : Node}
    (targetRegistered : middle.nodes[target]? = some targetNode)
    (position : Option Nat) :
    Edit.Delivers (middle.Affords subtree.hints) (targetNode.HasRoom position)
      (fun top after => ∃ rename, tree.Carried
        (middle.updateNode target fun node =>
          node.withChild (clampPosition position node.children.length) top)
        after hash target top rename)
      (attach subtree target position middle) := by
  refine (attach_placed targetRegistered subtree position).weaken ?_
  rintro top after ⟨_, placed, hashes, isTop, isPlaced⟩
  refine wellFormed.carried registered cloned ?_ ?_ isPlaced isTop
  · rw [updateNode, same]
  · exact fun within => absent_updateNode.mpr (pruned.cleared.gone_single within)

end Moving

end WellFormed

end Tree

end BehaviorTree
