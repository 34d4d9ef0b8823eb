import BehaviorTree.Proofs.Tree.Interposing
import BehaviorTree.Proofs.Tree.Listing
import BehaviorTree.Proofs.Tree.Swapping

/-!
# Looking up and looking down

A search for an ancestor follows the parents and a walk follows the children.  In a
well-formed tree the search comes to an end by itself, and finds a node just if the
walk from that node meets the other.  So an edit is refused as a cycle just if a node
would come to lie in its own subtree.
-/

namespace BehaviorTree

namespace Edit

variable {σ β γ : Type} {cause : TopologyError} {state after : σ}

theorem Exact.of_refused {allowed kept room : Prop} {post : β → σ → Prop}
    {result : EStateM.Result EditError σ β}
    (isExact : Exact allowed kept room post state result)
    (refused : result = .error (.refused cause) after) :
    ¬ allowed ∧ after = state := by
  rw [refused] at isExact
  exact isExact

/-- A check that does not fail for the given reason must be passed first. -/
theorem require_refuses_iff {check : Except TopologyError β} {next : β → Edit σ γ}
    (otherwise : check ≠ .error cause) :
    (require check >>= next) state = .error (.refused cause) after ↔
      ∃ value, check = .ok value ∧
        next value state = .error (.refused cause) after := by
  cases check with
  | ok value =>
      refine ⟨fun refused => ⟨value, rfl, refused⟩, ?_⟩
      rintro ⟨_, ⟨⟩, refused⟩
      exact refused
  | error failure =>
      constructor
      · intro refused
        cases refused
        exact (otherwise rfl).elim
      · rintro ⟨_, ⟨⟩, _⟩

theorem guard_refuses_iff {condition : Prop} [Decidable condition]
    {refusal : TopologyError} {next : β → Edit σ γ} {rest : Edit σ γ} :
    (if condition then refuse refusal >>= next else rest) state =
        .error (.refused cause) after ↔
      (condition ∧ refusal = cause ∧ after = state) ∨
        (¬ condition ∧ rest state = .error (.refused cause) after) := by
  by_cases holds : condition
  · rw [if_pos holds]
    constructor
    · intro refused
      cases refused
      exact .inl ⟨holds, rfl, rfl⟩
    · rintro (⟨_, rfl, rfl⟩ | ⟨fails, _⟩)
      · rfl
      · exact (fails holds).elim
  · rw [if_neg holds]
    exact ⟨fun refused => .inr ⟨holds, refused⟩,
      fun either => either.elim (fun caught => (holds caught.1).elim) And.right⟩

end Edit

section Checks

variable {hash cause : NodeHash}

mutual

theorem Subtree.checkShape_ne_wouldCycle (subtree : Subtree) :
    subtree.checkShape ≠ .error (.wouldCycle cause) := by
  cases subtree with
  | mk name hash weight kind children =>
      rw [checkShape]
      split
      · exact checkChildren_ne_wouldCycle name children
      · simp

theorem Subtree.checkChildren_ne_wouldCycle (parent : String)
    (children : List Subtree) :
    checkChildren parent children ≠ .error (.wouldCycle cause) := by
  cases children with
  | nil =>
      rw [checkChildren]
      simp
  | cons child rest =>
      rw [checkChildren]
      split
      · simp
      · split
        · next refusal refused =>
            rw [← refused]
            exact checkShape_ne_wouldCycle child
        · exact checkChildren_ne_wouldCycle parent rest

end

theorem Subtree.check_ne_wouldCycle (subtree : Subtree) :
    subtree.check ≠ .error (.wouldCycle cause) := by
  rw [check]
  split
  · simp
  · exact subtree.checkShape_ne_wouldCycle

theorem checkHost_ne_wouldCycle {kind : NodeKind} {name : String} {children : Nat} :
    checkHost kind hash name children ≠ .error (.wouldCycle cause) := by
  rw [checkHost]
  split
  · simp
  · split <;> simp
  · simp

namespace Tree

variable {tree : Tree}

theorem findMovable_ne_wouldCycle :
    tree.findMovable hash ≠ .error (.wouldCycle cause) := by
  rw [findMovable, find]
  cases tree.nodes[hash]? with
  | none => simp
  | some node =>
      dsimp only
      split <;> simp

theorem checkTarget_ne_wouldCycle {leaving : Option NodeHash} :
    tree.checkTarget hash leaving ≠ .error (.wouldCycle cause) := by
  rw [checkTarget, find]
  cases tree.nodes[hash]? with
  | none => simp
  | some node => exact checkHost_ne_wouldCycle

theorem slotOf_ne_wouldCycle : tree.slotOf hash ≠ .error (.wouldCycle cause) := by
  rw [slotOf, find]
  cases tree.nodes[hash]? with
  | none => simp
  | some node =>
      dsimp only
      split
      · simp
      · split <;> simp

end Tree

end Checks

namespace Tree

/-- A search that is not bounded: it goes from parent to parent until it meets the
ancestor or there is no parent. -/
inductive Seeks (tree : Tree) (ancestor : NodeHash) : NodeHash → Bool → Prop where
  | missed {hash : NodeHash} :
      tree.parentOf hash = none → Seeks tree ancestor hash false
  | found {hash : NodeHash} :
      tree.parentOf hash = some ancestor → Seeks tree ancestor hash true
  | up {hash parent : NodeHash} {answer : Bool} :
      tree.parentOf hash = some parent → parent ≠ ancestor →
      Seeks tree ancestor parent answer → Seeks tree ancestor hash answer

variable {tree : Tree} {ancestor hash : NodeHash}

theorem Seeks.unique {first second : Bool} (seeks : tree.Seeks ancestor hash first)
    (again : tree.Seeks ancestor hash second) : first = second := by
  induction seeks with
  | missed top =>
      cases again with
      | missed => rfl
      | found above => cases top.symm.trans above
      | up above => cases top.symm.trans above
  | found isParent =>
      cases again with
      | missed top => cases isParent.symm.trans top
      | found => rfl
      | up above other => exact (other (Option.some.inj (above.symm.trans isParent))).elim
  | up above other _ induction =>
      cases again with
      | missed top => cases above.symm.trans top
      | found isParent =>
          exact (other (Option.some.inj (above.symm.trans isParent))).elim
      | up isParent _ later =>
          exact induction (Option.some.inj (isParent.symm.trans above) ▸ later)

/-- A bounded search that runs out of parents within its bound. -/
theorem seeks_of_climb {fuel : Nat} (ended : tree.climb fuel hash = none) :
    tree.Seeks ancestor hash (tree.isAncestorWithin ancestor fuel hash) := by
  induction fuel generalizing hash with
  | zero => cases ended
  | succ fuel induction =>
      rw [isAncestorWithin]
      cases above : tree.parentOf hash with
      | none => exact .missed above
      | some parent =>
          dsimp only
          rw [climb, above, Option.bind_some] at ended
          by_cases isFound : parent = ancestor
          · subst isFound
            rw [decide_eq_true rfl, Bool.true_or]
            exact .found above
          · rw [decide_eq_false isFound, Bool.false_or]
            exact .up above isFound (induction ended)

theorem isAncestor_of_parentless (top : tree.parentOf hash = none) :
    tree.isAncestor ancestor hash = false := by
  rw [← Bool.not_eq_true, isAncestor, isAncestorWithin_iff]
  rintro ⟨steps, _, reached⟩
  rw [climb, top] at reached
  cases reached

namespace WellFormed

variable (wellFormed : tree.WellFormed)
include wellFormed

theorem seeks_isAncestor : tree.Seeks ancestor hash (tree.isAncestor ancestor hash) := by
  cases above : tree.parentOf hash with
  | none =>
      rw [isAncestor_of_parentless above]
      exact .missed above
  | some parent =>
      obtain ⟨node, registered, _⟩ := registered_of_parentOf above
      refine seeks_of_climb (Option.eq_none_iff_forall_ne_some.mpr fun top reached => ?_)
      exact Nat.lt_irrefl _ (wellFormed.climb_lt_size registered reached)

/-- The way up and the way down agree. -/
theorem isAncestor_iff_mem :
    tree.isAncestor ancestor hash = true ↔
      tree.contains ancestor = true ∧ tree.contains hash = true ∧
        ancestor ≠ hash ∧ hash ∈ tree.descendants ancestor := by
  rw [contains_eq_isSome, contains_eq_isSome]
  constructor
  · intro isAbove
    cases registered : tree.nodes[hash]? with
    | none =>
        rw [isAncestor_of_parentless (by rw [parentOf, registered]; rfl)] at isAbove
        cases isAbove
    | some node =>
        obtain ⟨within, strictly⟩ := (wellFormed.isAncestor_iff registered).mp isAbove
        obtain ⟨top, isTop⟩ := wellFormed.registered_of_within registered within
        rw [isTop]
        exact ⟨rfl, rfl, strictly, (wellFormed.mem_descendants_iff isTop).mpr within⟩
  · rintro ⟨topPresent, present, strictly, member⟩
    obtain ⟨top, isTop⟩ := Option.isSome_iff_exists.mp topPresent
    obtain ⟨node, registered⟩ := Option.isSome_iff_exists.mp present
    exact (wellFormed.isAncestor_iff registered).mpr
      ⟨(wellFormed.mem_descendants_iff isTop).mp member, strictly⟩

section Movable

variable (movable : tree.Movable ancestor)
include movable

theorem mem_descendants_iff_of_movable :
    hash ∈ tree.descendants ancestor ↔ tree.Within ancestor hash := by
  obtain ⟨⟨top, isTop⟩, _⟩ := movable
  exact wellFormed.mem_descendants_iff isTop

theorem isAncestor_iff_of_movable :
    tree.isAncestor ancestor hash = true ↔
      ancestor ≠ hash ∧ hash ∈ tree.descendants ancestor := by
  obtain ⟨⟨top, isTop⟩, _⟩ := movable
  rw [wellFormed.isAncestor_iff_mem, contains_eq_isSome, contains_eq_isSome, isTop]
  refine ⟨fun ⟨_, _, below⟩ => below, fun below => ⟨rfl, ?_, below⟩⟩
  have within := (wellFormed.mem_descendants_iff isTop).mp below.2
  obtain ⟨node, registered⟩ := within.registered isTop
  rw [registered]
  rfl

theorem eq_or_isAncestor_iff :
    (ancestor = hash ∨ tree.isAncestor ancestor hash = true) ↔
      hash ∈ tree.descendants ancestor := by
  rw [wellFormed.isAncestor_iff_of_movable movable]
  by_cases same : ancestor = hash
  · refine iff_of_true (.inl same) ?_
    rw [← same, wellFormed.mem_descendants_iff_of_movable movable]
    exact .top
  · rw [or_iff_right same, and_iff_right same]

end Movable

section Adding

variable (target : NodeHash) (position : Option Nat) {cause : NodeHash} {after : Tree}

theorem add_detached_ne_wouldCycle (subtree : Subtree) (copying : Bool) :
    add (.detached subtree) target position copying tree ≠
      .error (.refused (.wouldCycle cause)) after := by
  intro refused
  obtain ⟨notAccepted, _⟩ :=
    (wellFormed.add_detached_exact target position subtree copying).of_refused refused
  unfold add at refused
  obtain ⟨_, checked, refused⟩ :=
    (Edit.require_refuses_iff subtree.check_ne_wouldCycle).mp refused
  rw [Edit.get_bind] at refused
  obtain ⟨_, passed, _⟩ :=
    (Edit.require_refuses_iff checkTarget_ne_wouldCycle).mp refused
  exact notAccepted
    ⟨Subtree.check_eq_ok_iff.mp checked, checkTarget_eq_ok_iff.mp passed⟩

theorem add_copy_ne_wouldCycle (hash : NodeHash) :
    add (.resident hash) target position true tree ≠
      .error (.refused (.wouldCycle cause)) after := by
  intro refused
  obtain ⟨notAccepted, _⟩ :=
    (wellFormed.add_copy_exact target position hash).of_refused refused
  unfold add at refused
  dsimp only at refused
  rw [Edit.get_bind] at refused
  obtain ⟨node, found, refused⟩ :=
    (Edit.require_refuses_iff findMovable_ne_wouldCycle).mp refused
  rw [if_pos rfl, Edit.get_bind] at refused
  obtain ⟨_, passed, _⟩ :=
    (Edit.require_refuses_iff checkTarget_ne_wouldCycle).mp refused
  exact notAccepted ⟨wellFormed.movable_iff.mpr ⟨node, of_findMovable found⟩,
    checkTarget_eq_ok_iff.mp passed⟩

/-- A node that is to move is not put below itself. -/
theorem add_move_cycles_iff (hash : NodeHash) :
    add (.resident hash) target position false tree =
        .error (.refused (.wouldCycle cause)) after ↔
      hash = cause ∧ tree.Movable hash ∧ target ∈ tree.descendants hash ∧
        after = tree := by
  constructor
  · intro refused
    obtain ⟨notAccepted, unchanged⟩ :=
      (wellFormed.add_move_exact target position hash).of_refused refused
    unfold add at refused
    dsimp only at refused
    rw [Edit.get_bind] at refused
    obtain ⟨node, found, refused⟩ :=
      (Edit.require_refuses_iff findMovable_ne_wouldCycle).mp refused
    have movable := wellFormed.movable_iff.mpr ⟨node, of_findMovable found⟩
    rw [if_neg Bool.false_ne_true, Edit.get_bind] at refused
    obtain ⟨below, isCause, _⟩ | ⟨apart, refused⟩ := Edit.guard_refuses_iff.mp refused
    · rw [wellFormed.eq_or_isAncestor_iff movable] at below
      exact ⟨TopologyError.wouldCycle.inj isCause, movable, below, unchanged⟩
    · rw [wellFormed.eq_or_isAncestor_iff movable,
        wellFormed.mem_descendants_iff_of_movable movable] at apart
      rw [Edit.get_bind] at refused
      obtain ⟨_, passed, _⟩ :=
        (Edit.require_refuses_iff checkTarget_ne_wouldCycle).mp refused
      exact (notAccepted ⟨movable, apart, checkTarget_eq_ok_iff.mp passed⟩).elim
  · rintro ⟨rfl, movable, below, rfl⟩
    obtain ⟨node, registered⟩ := movable.1
    unfold add
    dsimp only
    rw [Edit.get_bind, Edit.require_refuses_iff findMovable_ne_wouldCycle]
    refine ⟨node, wellFormed.findMovable_eq_ok movable registered, ?_⟩
    rw [if_neg Bool.false_ne_true, Edit.get_bind, Edit.guard_refuses_iff]
    exact .inl ⟨(wellFormed.eq_or_isAncestor_iff movable).mpr below, rfl, rfl⟩

theorem add_cycles_iff (origin : NodeOrigin) (copying : Bool) :
    add origin target position copying tree =
        .error (.refused (.wouldCycle cause)) after ↔
      leaving copying origin = some cause ∧ tree.Movable cause ∧
        target ∈ tree.descendants cause ∧ after = tree := by
  cases origin with
  | detached subtree =>
      exact iff_of_false
        (wellFormed.add_detached_ne_wouldCycle target position subtree copying) nofun
  | resident hash =>
      cases copying with
      | true =>
          exact iff_of_false (wellFormed.add_copy_ne_wouldCycle target position hash)
            nofun
      | false =>
          rw [wellFormed.add_move_cycles_iff target position hash, leaving,
            if_neg Bool.false_ne_true, Option.some.injEq]
          refine and_congr_right fun same => ?_
          rw [same]

end Adding

theorem exchangeable_of_apart {first second : NodeHash}
    (firstMovable : tree.Movable first) (secondMovable : tree.Movable second)
    (apart : ¬ (tree.isAncestor first second = true ∨
      tree.isAncestor second first = true)) : tree.Exchangeable first second := by
  rw [not_or, wellFormed.isAncestor_iff_of_movable firstMovable,
    wellFormed.isAncestor_iff_of_movable secondMovable,
    wellFormed.mem_descendants_iff_of_movable firstMovable,
    wellFormed.mem_descendants_iff_of_movable secondMovable] at apart
  refine ⟨firstMovable, secondMovable, fun within => ?_, fun within => ?_⟩
  · exact by_contra fun different => apart.1 ⟨different, within⟩
  · exact by_contra fun different => apart.2 ⟨Ne.symm different, within⟩

/-- Of two nodes that are to be swapped neither lies below the other. -/
theorem swap_cycles_iff (first second : NodeHash) {cause : NodeHash} {after : Tree} :
    swap first second tree = .error (.refused (.wouldCycle cause)) after ↔
      first = cause ∧ tree.Movable first ∧ tree.Movable second ∧ first ≠ second ∧
        (second ∈ tree.descendants first ∨ first ∈ tree.descendants second) ∧
        after = tree := by
  constructor
  · intro refused
    obtain ⟨notAccepted, unchanged⟩ :=
      (wellFormed.swap_exchanges first second).of_refused refused
    unfold swap at refused
    rw [Edit.get_bind] at refused
    obtain ⟨firstSlot, firstFound, refused⟩ :=
      (Edit.require_refuses_iff slotOf_ne_wouldCycle).mp refused
    rw [Edit.get_bind] at refused
    obtain ⟨secondSlot, secondFound, refused⟩ :=
      (Edit.require_refuses_iff slotOf_ne_wouldCycle).mp refused
    have firstMovable := Movable.of_slotOf wellFormed firstFound
    have secondMovable := Movable.of_slotOf wellFormed secondFound
    by_cases same : first = second
    · rw [if_pos same] at refused
      cases refused
    rw [if_neg same, Edit.get_bind, Edit.get_bind] at refused
    obtain ⟨above, isCause, _⟩ | ⟨apart, _⟩ := Edit.guard_refuses_iff.mp refused
    · rw [wellFormed.isAncestor_iff_of_movable firstMovable,
        wellFormed.isAncestor_iff_of_movable secondMovable] at above
      exact ⟨TopologyError.wouldCycle.inj isCause, firstMovable, secondMovable, same,
        above.imp And.right And.right, unchanged⟩
    · exact (notAccepted
        (wellFormed.exchangeable_of_apart firstMovable secondMovable apart)).elim
  · rintro ⟨rfl, firstMovable, secondMovable, different, below, rfl⟩
    obtain ⟨firstSlot, firstFound⟩ := wellFormed.exists_slotOf_of_movable firstMovable
    obtain ⟨secondSlot, secondFound⟩ :=
      wellFormed.exists_slotOf_of_movable secondMovable
    unfold swap
    rw [Edit.get_bind, Edit.require_refuses_iff slotOf_ne_wouldCycle]
    refine ⟨firstSlot, firstFound, ?_⟩
    rw [Edit.get_bind, Edit.require_refuses_iff slotOf_ne_wouldCycle]
    refine ⟨secondSlot, secondFound, ?_⟩
    rw [if_neg different, Edit.get_bind, Edit.get_bind, Edit.guard_refuses_iff,
      wellFormed.isAncestor_iff_of_movable firstMovable,
      wellFormed.isAncestor_iff_of_movable secondMovable]
    exact .inl ⟨below.imp (And.intro different) (And.intro different.symm), rfl, rfl⟩

section Interposing

variable (target : NodeHash) (position : Option Nat) {cause : NodeHash} {after : Tree}

theorem interpose_detached_ne_wouldCycle (subtree : Subtree) (copying : Bool) :
    interpose (.detached subtree) target position copying tree ≠
      .error (.refused (.wouldCycle cause)) after := by
  intro refused
  obtain ⟨notAccepted, _⟩ :=
    (wellFormed.interpose_detached_exact target position subtree copying).of_refused
      refused
  unfold interpose at refused
  rw [Edit.get_bind] at refused
  obtain ⟨slot, found, refused⟩ :=
    (Edit.require_refuses_iff slotOf_ne_wouldCycle).mp refused
  obtain ⟨_, checked, refused⟩ :=
    (Edit.require_refuses_iff subtree.check_ne_wouldCycle).mp refused
  obtain ⟨_, passed, _⟩ :=
    (Edit.require_refuses_iff checkHost_ne_wouldCycle).mp refused
  obtain ⟨notLeaf, childless⟩ := checkHost_eq_ok_iff.mp passed
  exact notAccepted ⟨.of_slotOf wellFormed found, Subtree.check_eq_ok_iff.mp checked,
    notLeaf, fun single => List.length_eq_zero_iff.mp (childless single)⟩

omit wellFormed in
theorem checkHost_of_hosts {hash : NodeHash} {node : Node}
    (registered : tree.nodes[hash]? = some node) (hosts : tree.Hosts hash none) :
    checkHost node.kind node.hash node.name node.children.length = .ok () := by
  obtain ⟨notLeaf, childless⟩ := (hosts_none_iff registered).mp hosts
  exact checkHost_eq_ok_iff.mpr
    ⟨notLeaf, fun single => List.length_eq_zero_iff.mpr (childless single)⟩

/-- A host that is to move is not put above a node that lies below it. -/
theorem interpose_resident_cycles_iff (hash : NodeHash) (copying : Bool) :
    interpose (.resident hash) target position copying tree =
        .error (.refused (.wouldCycle cause)) after ↔
      copying = false ∧ hash = cause ∧ tree.Movable hash ∧ tree.Movable target ∧
        tree.Hosts hash none ∧ hash ≠ target ∧ target ∈ tree.descendants hash ∧
        after = tree := by
  constructor
  · intro refused
    obtain ⟨notAccepted, unchanged⟩ :=
      (wellFormed.interpose_resident_exact target position hash copying).of_refused
        refused
    unfold interpose at refused
    rw [Edit.get_bind] at refused
    obtain ⟨slot, slotFound, refused⟩ :=
      (Edit.require_refuses_iff slotOf_ne_wouldCycle).mp refused
    obtain ⟨_, impossible, _⟩ | ⟨different, refused⟩ :=
      Edit.guard_refuses_iff.mp refused
    · cases impossible
    dsimp only at refused
    rw [Edit.get_bind] at refused
    obtain ⟨node, found, refused⟩ :=
      (Edit.require_refuses_iff findMovable_ne_wouldCycle).mp refused
    obtain ⟨_, passed, refused⟩ :=
      (Edit.require_refuses_iff checkHost_ne_wouldCycle).mp refused
    have targetMovable := Movable.of_slotOf wellFormed slotFound
    have movable := wellFormed.movable_iff.mpr ⟨node, of_findMovable found⟩
    have hosts := hosts_of_checkHost (of_findMovable found).1 passed
    cases copying with
    | true =>
        exact (notAccepted ⟨targetMovable, movable, hosts, different, nofun⟩).elim
    | false =>
        rw [if_neg Bool.false_ne_true, Edit.get_bind] at refused
        obtain ⟨above, isCause, _⟩ | ⟨apart, _⟩ := Edit.guard_refuses_iff.mp refused
        · rw [wellFormed.isAncestor_iff_of_movable movable] at above
          exact ⟨rfl, TopologyError.wouldCycle.inj isCause, movable, targetMovable,
            hosts, different, above.2, unchanged⟩
        · rw [wellFormed.isAncestor_iff_of_movable movable, and_iff_right different,
            wellFormed.mem_descendants_iff_of_movable movable] at apart
          exact (notAccepted
            ⟨targetMovable, movable, hosts, different, fun _ => apart⟩).elim
  · rintro ⟨rfl, rfl, movable, targetMovable, hosts, different, below, rfl⟩
    obtain ⟨slot, slotFound⟩ := wellFormed.exists_slotOf_of_movable targetMovable
    obtain ⟨node, registered⟩ := movable.1
    unfold interpose
    rw [Edit.get_bind, Edit.require_refuses_iff slotOf_ne_wouldCycle]
    refine ⟨slot, slotFound, Edit.guard_refuses_iff.mpr (.inr ⟨different, ?_⟩)⟩
    dsimp only
    rw [Edit.get_bind, Edit.require_refuses_iff findMovable_ne_wouldCycle]
    refine ⟨node, wellFormed.findMovable_eq_ok movable registered, ?_⟩
    rw [Edit.require_refuses_iff checkHost_ne_wouldCycle]
    refine ⟨⟨⟩, checkHost_of_hosts registered hosts, ?_⟩
    rw [if_neg Bool.false_ne_true, Edit.get_bind, Edit.guard_refuses_iff,
      wellFormed.isAncestor_iff_of_movable movable]
    exact .inl ⟨⟨different, below⟩, rfl, rfl⟩

theorem interpose_cycles_iff (origin : NodeOrigin) (copying : Bool) :
    interpose origin target position copying tree =
        .error (.refused (.wouldCycle cause)) after ↔
      leaving copying origin = some cause ∧ tree.Movable cause ∧
        tree.Movable target ∧ tree.Hosts cause none ∧ cause ≠ target ∧
        target ∈ tree.descendants cause ∧ after = tree := by
  cases origin with
  | detached subtree =>
      exact iff_of_false
        (wellFormed.interpose_detached_ne_wouldCycle target position subtree copying)
        nofun
  | resident hash =>
      rw [wellFormed.interpose_resident_cycles_iff target position hash copying]
      cases copying with
      | true => exact iff_of_false nofun nofun
      | false =>
          rw [and_iff_right rfl, leaving, if_neg Bool.false_ne_true,
            Option.some.injEq]
          refine and_congr_right fun same => ?_
          rw [same]

end Interposing

end WellFormed

/-- A search for an ancestor comes to an end, and finds a node just if it is another
one from which a walk meets the first.  So adding, swapping and interposing are
refused as cycles just where a node that is to move, and may, would come to lie in its
own subtree, and change nothing then. -/
theorem ancestry_exact (wellFormed : tree.WellFormed) :
    (∀ ancestor hash answer,
      tree.Seeks ancestor hash answer ↔ answer = tree.isAncestor ancestor hash) ∧
    (∀ ancestor hash, tree.isAncestor ancestor hash = true ↔
      tree.contains ancestor = true ∧ tree.contains hash = true ∧
        ancestor ≠ hash ∧ hash ∈ tree.descendants ancestor) ∧
    (∀ origin target position copying cause after,
      add origin target position copying tree =
          .error (.refused (.wouldCycle cause)) after ↔
        leaving copying origin = some cause ∧ tree.Movable cause ∧
          target ∈ tree.descendants cause ∧ after = tree) ∧
    (∀ first second cause after,
      swap first second tree = .error (.refused (.wouldCycle cause)) after ↔
        first = cause ∧ tree.Movable first ∧ tree.Movable second ∧ first ≠ second ∧
          (second ∈ tree.descendants first ∨ first ∈ tree.descendants second) ∧
          after = tree) ∧
    ∀ origin target position copying cause after,
      interpose origin target position copying tree =
          .error (.refused (.wouldCycle cause)) after ↔
        leaving copying origin = some cause ∧ tree.Movable cause ∧
          tree.Movable target ∧ tree.Hosts cause none ∧ cause ≠ target ∧
          target ∈ tree.descendants cause ∧ after = tree := by
  refine ⟨fun ancestor hash answer => ?_, fun _ _ => wellFormed.isAncestor_iff_mem,
    fun origin target position copying _ _ =>
      wellFormed.add_cycles_iff target position origin copying,
    fun first second _ _ => wellFormed.swap_cycles_iff first second,
    fun origin target position copying _ _ =>
      wellFormed.interpose_cycles_iff target position origin copying⟩
  have seeks : tree.Seeks ancestor hash (tree.isAncestor ancestor hash) :=
    wellFormed.seeks_isAncestor
  exact ⟨fun other => other.unique seeks, fun same => same ▸ seeks⟩

/-- The day of a watch can neither be put below its guard nor change places with
him. -/
theorem guard_below_day :
    ∃ tree, camp.grown watch = some tree ∧
      tree.isAncestor ⟨"day-1"⟩ ⟨"guard-1"⟩ = true ∧
      ⟨"guard-1"⟩ ∈ tree.descendants ⟨"day-1"⟩ ∧
      add (.resident ⟨"day-1"⟩) ⟨"guard-1"⟩ none false tree =
        .error (.refused (.wouldCycle ⟨"day-1"⟩)) tree ∧
      swap ⟨"day-1"⟩ ⟨"guard-1"⟩ tree =
        .error (.refused (.wouldCycle ⟨"day-1"⟩)) tree := by
  have checked : (camp.grown watch).any (fun tree =>
      tree.isAncestor ⟨"day-1"⟩ ⟨"guard-1"⟩ &&
        (tree.slotOf ⟨"day-1"⟩).isOk && (tree.slotOf ⟨"guard-1"⟩).isOk) = true := by
    decide +kernel
  obtain ⟨tree, settled, passed⟩ := (Option.any_eq_true _ _).mp checked
  rw [Bool.and_eq_true, Bool.and_eq_true] at passed
  obtain ⟨⟨isAbove, dayHasSlot⟩, guardHasSlot⟩ := passed
  have wellFormed := (of_grown settled).1
  have dayMovable := wellFormed.movable_of_isOk dayHasSlot
  have guardMovable := wellFormed.movable_of_isOk guardHasSlot
  obtain ⟨_, agrees, addCycles, swapCycles, _⟩ := ancestry_exact wellFormed
  obtain ⟨_, _, different, below⟩ := (agrees _ _).mp isAbove
  exact ⟨tree, settled, isAbove, below,
    (addCycles _ _ _ _ _ _).mpr ⟨rfl, dayMovable, below, rfl⟩,
    (swapCycles _ _ _ _).mpr
      ⟨rfl, dayMovable, guardMovable, different, .inl below, rfl⟩⟩

end Tree

end BehaviorTree
