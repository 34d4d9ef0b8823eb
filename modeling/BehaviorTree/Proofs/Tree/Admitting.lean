import BehaviorTree.Proofs.Tree.Crossing

/-!
# Nodes that come in

Adding and interposing do the same thing in two steps: a node that moves leaves its
place, and then the subtree that comes in is registered node by node.  What these
edits do is said here once, for a node that is detached, of the same tree or of
another one, copied or moved.
-/

namespace BehaviorTree

theorem Edit.Upholds.and {σ β : Type} {before : σ} {first second : β → σ → Prop}
    {result : EStateM.Result EditError σ β}
    (upholds : Edit.Upholds before first result)
    (others : Edit.Upholds before second result) :
    Edit.Upholds before (fun value after => first value after ∧ second value after)
      result := by
  cases result with
  | ok value after => exact ⟨upholds, others⟩
  | error failure after => cases failure <;> exact upholds

namespace Tree

theorem incoming_of_leaving {tree : Tree} {origin : NodeOrigin} {copying : Bool}
    {hash : NodeHash} (moves : leaving copying origin = some hash) :
    tree.incoming origin = tree.cloneSubtree hash := by
  cases origin with
  | detached subtree => cases moves
  | resident other =>
      cases copying with
      | true => cases moves
      | false =>
          obtain rfl := Option.some.inj moves
          rfl

/-- `base` is the tree once the node that leaves, if there is one, has left its
place. -/
inductive Vacates (tree : Tree) : Option NodeHash → Tree → Prop where
  | unmoved : Vacates tree none tree
  | moved {hash : NodeHash} {slot : Slot} {parentNode : Node} {base : Tree} :
      tree.Pruned base hash slot parentNode →
      base = { tree with nodes := base.nodes } →
      Vacates tree (some hash) base

/-- What is registered once the node that leaves, if there is one, has left. -/
def remainingAfter (tree : Tree) (leaving : Option NodeHash) : NodeHash → Bool :=
  leaving.elim tree.contains tree.remaining

namespace Vacates

variable {tree base : Tree} {leaving : Option NodeHash}
  (vacates : tree.Vacates leaving base)
include vacates

theorem same : base = { tree with nodes := base.nodes } := by
  cases vacates with
  | unmoved => rfl
  | moved _ same => exact same

theorem wellFormed_after (wellFormed : tree.WellFormed) : base.WellFormed := by
  cases vacates with
  | unmoved => exact wellFormed
  | moved pruned => exact pruned.wellFormed_after wellFormed

theorem contains_eq (wellFormed : tree.WellFormed) :
    base.contains = tree.remainingAfter leaving := by
  cases vacates with
  | unmoved => rfl
  | @moved hash slot _ _ pruned =>
      refine wellFormed.contains_eq_remaining pruned.cleared.gone_single ?_
      intro other outside
      rw [← contains_updateNode tree slot.parent (·.removeChild slot.index),
        contains_eq_isSome, contains_eq_isSome, pruned.cleared.kept_single outside]

/-- A node that does not leave has lost one child at most. -/
theorem stays {other : NodeHash} {old : Node}
    (registered : tree.nodes[other]? = some old)
    (notGone : ¬ tree.Gone leaving other) :
    ∃ now, base.nodes[other]? = some now ∧
      (now = old ∨ ∃ index, index < old.children.length ∧
        now = old.removeChild index) := by
  cases vacates with
  | unmoved => exact ⟨old, registered, .inl rfl⟩
  | @moved hash slot parentNode _ pruned =>
      have now := pruned.kept (gone_some_iff.not.mp notGone)
      by_cases atParent : other = slot.parent
      · rw [atParent, pruned.parentRegistered, Option.some.injEq] at registered
        subst registered
        obtain ⟨bound, _⟩ := List.getElem?_eq_some_iff.mp pruned.listed
        rw [if_pos atParent] at now
        exact ⟨_, now, .inr ⟨slot.index, bound, rfl⟩⟩
      · rw [if_neg atParent, registered] at now
        exact ⟨old, now, .inl rfl⟩

end Vacates

theorem WellFormed.remove_vacates {tree : Tree} (wellFormed : tree.WellFormed)
    (hash : NodeHash) :
    Edit.Upholds tree (fun _ after => tree.Vacates (some hash) after)
      (remove hash tree) := by
  unfold remove
  cases found : tree.slotOf hash with
  | error cause =>
      unfold detach
      refine .after_get (.after_require fun slot slotFound => ?_)
      rw [found] at slotFound
      cases slotFound
  | ok slot =>
      obtain ⟨slot, parentNode, subtree, after, detached, _, _, _, same, pruned⟩ :=
        wellFormed.detach_pruned (.of_slotOf wellFormed found)
      rw [detached]
      exact .moved pruned same

/-- `after` is `base` with the subtree below the target, under the given hashes. -/
structure Admitted (base after : Tree) (target : NodeHash)
    (position : Option Nat) (subtree placed : Subtree) (hashes : List NodeHash)
    (top : NodeHash) : Prop where
  found : ∃ node, base.nodes[target]? = some node ∧ node.HasRoom position
  isTop : placed.hash = some top
  isPlaced : (base.updateNode target fun node =>
    node.withChild (clampPosition position node.children.length) top).Placed
      after target subtree placed hashes

theorem attach_admitted {base : Tree} {target : NodeHash} {node : Node}
    (registered : base.nodes[target]? = some node) (subtree : Subtree)
    (position : Option Nat) :
    Edit.Completes
      (fun top after => ∃ placed hashes,
        base.Admitted after target position subtree placed hashes top)
      (attach subtree target position base) := by
  refine (attach_placed registered subtree position).completes.mono ?_
  rintro top after ⟨room, placed, hashes, isTop, isPlaced⟩
  exact ⟨placed, hashes, ⟨node, registered, room⟩, isTop, isPlaced⟩

section OneTree

variable {tree : Tree} (wellFormed : tree.WellFormed) (origin : NodeOrigin)
  (target : NodeHash) (position : Option Nat) (copying : Bool)
include wellFormed

/-- A node that is added leaves its place if it moves, and comes in below the
target. -/
theorem WellFormed.add_admits :
    Edit.Upholds tree
      (fun top after => ∃ base subtree placed hashes,
        tree.Vacates (leaving copying origin) base ∧
        tree.incoming origin = some subtree ∧
        base.Admitted after target position subtree placed hashes top)
      (add origin target position copying tree) := by
  unfold add
  cases origin with
  | detached subtree =>
      refine .after_require fun _ _ => .after_get (.after_require fun _ passed => ?_)
      obtain ⟨node, registered, _⟩ := of_checkTarget passed
      refine .of_completes ((attach_admitted registered subtree position).mono ?_)
      rintro top after ⟨placed, hashes, admitted⟩
      exact ⟨tree, subtree, placed, hashes, .unmoved, rfl, admitted⟩
  | resident hash =>
      refine .after_get (.after_require fun node found => ?_)
      obtain ⟨nodeRegistered, notRoot⟩ := of_findMovable found
      have movable := wellFormed.movable_iff.mpr ⟨node, nodeRegistered, notRoot⟩
      cases copying with
      | true =>
          refine .after_get (.after_require fun _ passed => ?_)
          obtain ⟨targetNode, registered, _⟩ := of_checkTarget passed
          obtain ⟨subtree, cloned, _⟩ :=
            wellFormed.cloneSubtree_spec nodeRegistered movable.2
          refine .of_completes (.after_ok (copyNode_eq_ok cloned)
            ((attach_admitted registered subtree position).mono ?_))
          rintro top after ⟨placed, hashes, admitted⟩
          exact ⟨tree, subtree, placed, hashes, .unmoved, cloned, admitted⟩
      | false =>
          refine .after_get (.after_guard fun apart => ?_)
          refine .after_get (.after_require fun _ passed => ?_)
          obtain ⟨targetNode, registered, _⟩ := of_checkTarget passed
          rw [not_or, wellFormed.isAncestor_iff registered] at apart
          obtain ⟨slot, parentNode, subtree, base, detached, cloned, _, _, same,
            pruned⟩ := wellFormed.detach_pruned movable
          have vacates : tree.Vacates (some hash) base := .moved pruned same
          obtain ⟨targetNow, targetFound, _⟩ := vacates.stays registered <|
            gone_some_iff.not.mpr fun within => apart.2 ⟨within, apart.1⟩
          refine .of_completes (.after_ok detached
            ((attach_admitted targetFound subtree position).mono ?_))
          rintro top after ⟨placed, hashes, admitted⟩
          exact ⟨base, subtree, placed, hashes, vacates, cloned, admitted⟩

/-- A host leaves its place if it moves, and comes in above the target. -/
theorem WellFormed.interpose_admits :
    Edit.Upholds tree
      (fun host after => ∃ base middle slot subtree placed hashes,
        tree.Vacates (leaving copying origin) base ∧
        tree.incoming origin = some subtree ∧
        base.Hosted middle after target host slot position subtree placed hashes)
      (interpose origin target position copying tree) := by
  unfold interpose
  refine .after_get (.after_require fun slot found => ?_)
  cases origin with
  | detached subtree =>
      refine .after_require fun _ _ => .after_require fun _ _ => ?_
      refine .of_completes
        ((spliceAbove_hosts found subtree position).completes.mono ?_)
      rintro host after ⟨middle, placed, hashes, hosted⟩
      exact ⟨tree, middle, slot, subtree, placed, hashes, .unmoved, rfl, hosted⟩
  | resident hash =>
      refine .after_guard fun different => ?_
      refine .after_get (.after_require fun node nodeFound => ?_)
      refine .after_require fun _ _ => ?_
      obtain ⟨nodeRegistered, notRoot⟩ := of_findMovable nodeFound
      have movable := wellFormed.movable_iff.mpr ⟨node, nodeRegistered, notRoot⟩
      cases copying with
      | true =>
          obtain ⟨subtree, cloned, _⟩ :=
            wellFormed.cloneSubtree_spec nodeRegistered movable.2
          refine .of_completes (.after_ok (copyNode_eq_ok cloned)
            ((spliceAbove_hosts found subtree position).completes.mono ?_))
          rintro host after ⟨middle, placed, hashes, hosted⟩
          exact ⟨tree, middle, slot, subtree, placed, hashes, .unmoved, cloned,
            hosted⟩
      | false =>
          obtain ⟨targetNode, registered, _⟩ :=
            registered_of_parentOf (of_slotOf found).1
          refine .after_get (.after_guard fun notAbove => ?_)
          rw [wellFormed.isAncestor_iff registered] at notAbove
          obtain ⟨_, parentNode, subtree, base, detached, cloned, _,
            baseWellFormed, same, pruned⟩ := wellFormed.detach_pruned movable
          have vacates : tree.Vacates (some hash) base := .moved pruned same
          obtain ⟨targetNow, targetFound, _⟩ := vacates.stays registered <|
            gone_some_iff.not.mpr fun within => notAbove ⟨within, different⟩
          have stillMovable : base.Movable target :=
            ⟨⟨targetNow, targetFound⟩,
              pruned.sameRoot ▸ wellFormed.ne_root_of_slotOf found⟩
          obtain ⟨slotNow, slotFound⟩ :=
            baseWellFormed.exists_slotOf_of_movable stillMovable
          refine .of_completes (.after_ok detached
            ((spliceAbove_hosts slotFound subtree position).completes.mono ?_))
          rintro host after ⟨middle, placed, hashes, hosted⟩
          exact ⟨base, middle, slotNow, subtree, placed, hashes, vacates, cloned,
            hosted⟩

end OneTree

end Tree

namespace TreePair

open BehaviorTree.Tree

variable {pair : TreePair} (wellFormed : pair.WellFormed) (hash target : NodeHash)
  (position : Option Nat) (copying : Bool)
include wellFormed

omit target position in
theorem fetchForeign_vacates (movable : pair.source.Movable hash) :
    Edit.Completes
      (fun subtree after => pair.source.cloneSubtree hash = some subtree ∧
        after.dest = pair.dest ∧
        pair.source.Vacates (leaving copying (.resident hash)) after.source)
      (fetchForeign hash copying pair) := by
  unfold fetchForeign
  cases copying with
  | true =>
      obtain ⟨⟨node, registered⟩, notRoot⟩ := movable
      obtain ⟨subtree, cloned, _⟩ :=
        wellFormed.source.cloneSubtree_spec registered notRoot
      rw [if_pos rfl, Edit.get_bind, cloned]
      exact ⟨rfl, rfl, .unmoved⟩
  | false =>
      obtain ⟨slot, parentNode, subtree, source, detached, cloned, _, _, same,
        pruned⟩ := wellFormed.source.detach_pruned movable
      rw [if_neg Bool.false_ne_true, Edit.onSource, Edit.zoom, detached]
      exact ⟨cloned, rfl, .moved pruned same⟩

theorem addForeign_admits :
    Edit.Upholds pair
      (fun top after => ∃ subtree placed hashes,
        pair.source.cloneSubtree hash = some subtree ∧
        pair.source.Vacates (leaving copying (.resident hash)) after.source ∧
        pair.dest.Admitted after.dest target position subtree placed hashes top)
      (addForeign hash target position copying pair) := by
  unfold addForeign
  refine .after_get (.after_require fun node found => ?_)
  refine .after_get (.after_require fun _ passed => ?_)
  have movable := wellFormed.source.movable_iff.mpr ⟨node, of_findForeign found⟩
  obtain ⟨targetNode, registered, _⟩ := of_checkTarget passed
  refine .of_completes
    ((fetchForeign_vacates wellFormed hash copying movable).bind ?_)
  rintro subtree ⟨dest, source⟩ ⟨cloned, rfl, vacates⟩
  refine .zoom ((attach_admitted registered subtree position).mono ?_)
  rintro top after ⟨placed, hashes, admitted⟩
  exact ⟨subtree, placed, hashes, cloned, vacates, admitted⟩

theorem interposeForeign_admits :
    Edit.Upholds pair
      (fun host after => ∃ middle slot subtree placed hashes,
        pair.source.cloneSubtree hash = some subtree ∧
        pair.source.Vacates (leaving copying (.resident hash)) after.source ∧
        pair.dest.Hosted middle after.dest target host slot position subtree placed
          hashes)
      (interposeForeign hash target position copying pair) := by
  unfold interposeForeign
  refine .after_get (.after_require fun slot slotFound => ?_)
  refine .after_get (.after_require fun node found => ?_)
  refine .after_require fun _ _ => ?_
  have movable := wellFormed.source.movable_iff.mpr ⟨node, of_findForeign found⟩
  refine .of_completes
    ((fetchForeign_vacates wellFormed hash copying movable).bind ?_)
  rintro subtree ⟨dest, source⟩ ⟨cloned, rfl, vacates⟩
  refine .zoom ((spliceAbove_hosts slotFound subtree position).completes.mono ?_)
  rintro host after ⟨middle, placed, hashes, hosted⟩
  exact ⟨middle, slot, subtree, placed, hashes, cloned, vacates, hosted⟩

end TreePair

end BehaviorTree
