import BehaviorTree.Proofs.Tree.Interposing
import BehaviorTree.Proofs.Tree.Swapping

/-!
# Exchanging nodes of two trees

Swapping nodes of two trees goes through just if both can move, unless one of the
trees runs out of hashes.  Each subtree comes to stand in the slot of the other
one, and the tree there mints all its hashes anew, since none of them is in its
scope.  A hash that the other node has left behind may be handed out again.
-/

namespace BehaviorTree

namespace Tree

/-- Mints hashes one after the other. -/
def mintEach (taken : NodeHash → Bool) (minter : HashMinter) :
    Nat → Option (List NodeHash × HashMinter)
  | 0 => some ([], minter)
  | count + 1 =>
    match minter.mint taken with
    | (.ok hash, rest) =>
      (mintEach (occupied taken [hash]) rest count).map fun (hashes, final) =>
        (hash :: hashes, final)
    | (.error _, _) => none

/-- Suggestions from elsewhere count for nothing. -/
theorem allot_of_foreign {id : TreeId} (taken : NodeHash → Bool)
    (minter : HashMinter) {hints : List (Option NodeHash)}
    (foreign : ∀ hint ∈ hints, ∀ hash, hint = some hash →
      hash.isScopedTo id = false) :
    allot id taken minter hints = mintEach taken minter hints.length := by
  induction hints generalizing taken minter with
  | nil => rfl
  | cons hint rest induction =>
      have notKept : (hint.filter fun hash =>
          hash.isScopedTo id && !taken hash) = none := by
        rw [Option.filter_eq_none_iff]
        intro hash isHint
        rw [foreign hint List.mem_cons_self hash isHint]
        exact Bool.false_ne_true
      have others := fun taken minter => induction taken minter
        fun other member => foreign other (List.mem_cons_of_mem _ member)
      rw [allot, allotOne, notKept, List.length_cons, mintEach]
      cases minter.mint taken with
      | mk answer middle =>
          cases answer with
          | error failure => rfl
          | ok hash => simp only [others]

theorem isScopedTo_of_mintEach {taken : NodeHash → Bool}
    {minter rest : HashMinter} {count : Nat} {hashes : List NodeHash}
    (minted : mintEach taken minter count = some (hashes, rest)) :
    ∀ hash ∈ hashes, hash.isScopedTo minter.scope = true := by
  induction count generalizing taken minter hashes with
  | zero =>
      cases minted
      exact nofun
  | succ count induction =>
      rw [mintEach] at minted
      split at minted
      · next hash middle first =>
          obtain ⟨⟨others, final⟩, later, same⟩ := Option.map_eq_some_iff.mp minted
          cases same
          have sameScope : middle.scope = minter.scope := by
            rw [← HashMinter.scope_mint taken minter, first]
          intro other member
          rcases List.mem_cons.mp member with rfl | member
          · exact HashMinter.isScopedTo_of_mint first
          · exact sameScope ▸ induction later other member
      · cases minted

/-- What stays registered when the given node leaves. -/
def remaining (tree : Tree) (leaving other : NodeHash) : Bool :=
  tree.contains other && !(leaving = other || tree.isAncestor leaving other)

theorem WellFormed.leaves_iff {tree : Tree} (wellFormed : tree.WellFormed)
    {leaving other : NodeHash} {node : Node}
    (registered : tree.nodes[other]? = some node) :
    (leaving = other || tree.isAncestor leaving other) = true ↔
      tree.Within leaving other := by
  rw [Bool.or_eq_true, decide_eq_true_iff, wellFormed.isAncestor_iff registered]
  constructor
  · rintro (rfl | ⟨within, _⟩)
    · exact .top
    · exact within
  · intro within
    by_cases here : leaving = other
    · exact .inl here
    · exact .inr ⟨within, here⟩

theorem WellFormed.contains_eq_remaining {tree current : Tree}
    (wellFormed : tree.WellFormed) {leaving : NodeHash}
    (gone : ∀ {other : NodeHash}, tree.Within leaving other →
      current.nodes[other]? = none)
    (kept : ∀ {other : NodeHash}, ¬ tree.Within leaving other →
      current.contains other = tree.contains other) :
    current.contains = tree.remaining leaving := by
  funext other
  rw [remaining]
  by_cases within : tree.Within leaving other
  · rw [contains_eq_false_iff.mpr (gone within)]
    cases registered : tree.nodes[other]? with
    | none => rw [contains_eq_false_iff.mpr registered, Bool.false_and]
    | some node =>
        rw [(wellFormed.leaves_iff registered).mpr within, Bool.not_true,
          Bool.and_false]
  · rw [kept within]
    cases registered : tree.nodes[other]? with
    | none => rw [contains_eq_false_iff.mpr registered, Bool.false_and]
    | some node =>
        rw [Bool.eq_false_iff.mpr (mt (wellFormed.leaves_iff registered).mp within),
          Bool.not_false, Bool.and_true]

/-- `after` is `tree` with the subtree in the slot of the node that left.  All its
hashes were minted when that node was gone, and nothing else changed. -/
structure Supplanted (tree after : Tree) (leaving : NodeHash) (slot : Slot)
    (subtree : Subtree) (here : NodeHash) : Prop where
  found : tree.slotOf leaving = .ok slot
  filled : after.slotOf here = .ok slot
  same : after = { tree with nodes := after.nodes, minter := after.minter }
  copied : ∃ copy hashes, after.cloneSubtree here = some copy ∧
    copy.unhashed = subtree.unhashed ∧ copy.hints = hashes.map some ∧
    mintEach (tree.remaining leaving) tree.minter hashes.length =
      some (hashes, after.minter) ∧
    ∀ hash ∈ hashes, hash.isScopedTo tree.id = true
  stays : ∀ {other : NodeHash} {old : Node}, tree.nodes[other]? = some old →
    ¬ tree.Within leaving other → after.nodes[other]? = some
      (if other = slot.parent then old.replaceChild slot.index here else old)
  only : ∀ {other : NodeHash} {now : Node}, after.nodes[other]? = some now →
    (∃ old, tree.nodes[other]? = some old ∧ ¬ tree.Within leaving other) ∨
      after.Within here other

/-- Filling the slot of a node that was unregistered leaves the other nodes alone,
but for the child list of the parent. -/
theorem nodes_of_filled {tree current after : Tree} {leaving here : NodeHash} {slot : Slot}
    (cleared : tree.Cleared [leaving] tree.nodes current.nodes)
    {subtree placed : Subtree} {hashes : List NodeHash}
    (isPlaced : (current.updateNode slot.parent
      (·.replaceChild slot.index here)).Placed after slot.parent subtree placed
      hashes) {other : NodeHash} {old : Node}
    (registered : tree.nodes[other]? = some old)
    (outside : ¬ tree.Within leaving other) :
    after.nodes[other]? = some
      (if other = slot.parent then old.replaceChild slot.index here else old) := by
  apply isPlaced.kept
  exact registered_updateNode
    ((cleared.kept_single outside).trans registered) _ _

theorem WellFormed.fillSlot_supplanted {tree : Tree}
    (wellFormed : tree.WellFormed) {id : TreeId} (scopedTo : tree.ScopedTo id)
    (current : Tree)
    {leaving : NodeHash} {slot : Slot} (found : tree.slotOf leaving = .ok slot)
    (same : current = { tree with nodes := current.nodes })
    (cleared : tree.Cleared [leaving] tree.nodes current.nodes)
    {subtree : Subtree} (proper : subtree.Proper)
    (foreign : ∀ hint ∈ subtree.hints, ∀ hash, hint = some hash →
      hash.isScopedTo id = false) :
    Edit.Delivers
      ((mintEach (tree.remaining leaving) tree.minter
        subtree.hints.length).isSome = true) True
      (fun here after => tree.Supplanted after leaving slot subtree here)
      (fillSlot slot subtree current) := by
  obtain ⟨above, parentNode, parentRegistered, listed⟩ := of_slotOf found
  obtain ⟨bound, _⟩ := List.getElem?_eq_some_iff.mp listed
  have parentCurrent : current.nodes[slot.parent]? = some parentNode := by
    rw [cleared.kept_single (wellFormed.not_within_child above), parentRegistered]
  have sameId : current.id = id := by rw [same, scopedTo.own]
  have sameMinter : current.minter = tree.minter := by rw [same]
  have minting : allot current.id current.contains current.minter subtree.hints =
      mintEach (tree.remaining leaving) tree.minter subtree.hints.length := by
    have registered : current.contains = tree.remaining leaving :=
      wellFormed.contains_eq_remaining cleared.gone_single fun outside => by
        rw [contains_eq_isSome, contains_eq_isSome, cleared.kept_single outside]
    rw [sameId, registered, sameMinter, allot_of_foreign _ _ foreign]
  refine ((fillSlot_placed parentCurrent subtree).and_completes
    (wellFormed.fillSlot_spec current found proper (by rw [same]) cleared)).mono
    (fun affords => by rwa [Affords, minting]) (fun room => room) ?_
  rintro here after ⟨⟨placed, hashes, isTop, isPlaced⟩, laterWellFormed⟩
  have handed : mintEach (tree.remaining leaving) tree.minter hashes.length =
      some (hashes, after.minter) := by
    have allotted := isPlaced.allotted
    rw [contains_updateNode] at allotted
    rw [(free_of_allot allotted).1, ← minting]
    exact allotted
  have stays : ∀ {other : NodeHash} {old : Node}, tree.nodes[other]? = some old →
      ¬ tree.Within leaving other → after.nodes[other]? = some
        (if other = slot.parent then old.replaceChild slot.index here else old) :=
    nodes_of_filled cleared isPlaced
  obtain ⟨tops, _, hereNow, _⟩ := isPlaced.top isTop
  refine
    { found, stays
      filled := laterWellFormed.slotOf_eq_ok_iff.mpr ⟨parentOf_eq hereNow, ?_⟩
      same := ?_
      copied := ⟨placed, hashes,
        isPlaced.stands.cloneSubtree_eq laterWellFormed isTop, isPlaced.unhashed,
        isPlaced.hinted, handed, ?_⟩
      only := ?_ }
  · have parentNow := stays parentRegistered (wellFormed.not_within_child above)
    rw [if_pos rfl] at parentNow
    rw [childrenOf_eq parentNow]
    exact List.getElem?_set_self bound
  · rw [isPlaced.same, updateNode, same]
  · rw [scopedTo.own, ← scopedTo.minting]
    exact isScopedTo_of_mintEach handed
  · intro other now registered
    rcases isPlaced.mem_of_registered registered with member | old
    · refine .inr (isPlaced.stands.within isTop ?_)
      rw [isPlaced.hinted]
      exact List.mem_map_of_mem member
    · have present : current.nodes[other]? ≠ none := by
        rw [Ne, ← absent_updateNode, old]
        exact Option.some_ne_none _
      have outside : ¬ tree.Within leaving other :=
        fun within => present (cleared.gone_single within)
      rw [cleared.kept_single outside] at present
      obtain ⟨node, found⟩ := Option.ne_none_iff_exists'.mp present
      exact .inl ⟨node, found, outside⟩

theorem WellFormed.foreign_hints {tree : Tree} (wellFormed : tree.WellFormed)
    {own other : TreeId} (scopedTo : tree.ScopedTo own) (different : other ≠ own)
    {top : NodeHash} {subtree : Subtree}
    (cloned : tree.cloneSubtree top = some subtree) :
    ∀ hint ∈ subtree.hints, ∀ hash, hint = some hash →
      hash.isScopedTo other = false := by
  rintro hint member hash rfl
  obtain ⟨found, same, _, node, registered⟩ :=
    wellFormed.within_of_hints cloned _ member
  obtain rfl := Option.some.inj same
  rw [Bool.eq_false_iff]
  intro inScope
  exact different (NodeHash.scope_unique inScope
    (scopedTo.isScopedTo_of_registered registered))

end Tree

namespace TreePair

open BehaviorTree.Tree

/-- Both nodes can move. -/
def Crossable (pair : TreePair) (first second : NodeHash) : Prop :=
  pair.dest.Movable first ∧ pair.source.Movable second

/-- Both trees have hashes for what comes in once the other node has left. -/
def MintsAll (pair : TreePair) (first second : NodeHash) : Prop :=
  ∀ firstTree secondTree, pair.dest.cloneSubtree first = some firstTree →
    pair.source.cloneSubtree second = some secondTree →
    (mintEach (pair.dest.remaining first) pair.dest.minter
      secondTree.hints.length).isSome = true ∧
    (mintEach (pair.source.remaining second) pair.source.minter
      firstTree.hints.length).isSome = true

/-- What swapping nodes of two trees does: each subtree comes to stand in the slot
of the other one, under the hash that was returned for it. -/
def Crosses (pair after : TreePair) (first second firstThere secondHere : NodeHash) :
    Prop :=
  ∃ firstSlot secondSlot firstTree secondTree,
    pair.dest.cloneSubtree first = some firstTree ∧
    pair.source.cloneSubtree second = some secondTree ∧
    pair.dest.Supplanted after.dest first firstSlot secondTree secondHere ∧
    pair.source.Supplanted after.source second secondSlot firstTree firstThere

theorem swapForeign_exact {pair : TreePair} (wellFormed : pair.WellFormed)
    {dest source : TreeId} (scopedTo : pair.ScopedTo dest source)
    (different : dest ≠ source) (first second : NodeHash) :
    Edit.Exact (pair.Crossable first second) (pair.MintsAll first second) True
      (fun tops after => pair.Crosses after first second tops.1 tops.2) pair
      (swapForeign first second pair) := by
  rcases WellFormed.swapForeign_cases first second with
    ⟨firstSlot, secondSlot, firstFound, secondFound⟩ | ⟨⟨cause, refused⟩, slotless⟩
  · obtain ⟨firstTree, secondTree, destNow, sourceNow, firstCloned, secondCloned,
      firstProper, secondProper, sameDest, sameSource, firstCleared, secondCleared,
      delivers⟩ := wellFormed.swapForeign_delivers firstFound secondFound
    have filled := delivers
      (wellFormed.dest.fillSlot_supplanted scopedTo.dest destNow firstFound
        sameDest firstCleared secondProper
        (wellFormed.source.foreign_hints scopedTo.source different secondCloned))
      (wellFormed.source.fillSlot_supplanted scopedTo.source sourceNow secondFound
        sameSource secondCleared firstProper
        (wellFormed.dest.foreign_hints scopedTo.dest different.symm firstCloned))
    refine .of_delivers ⟨.of_slotOf wellFormed.dest firstFound,
      .of_slotOf wellFormed.source secondFound⟩
      (filled.mono id id ?_)
      (fun mints => mints firstTree secondTree firstCloned secondCloned) id
    rintro tops after ⟨destSupplanted, sourceSupplanted⟩
    exact ⟨firstSlot, secondSlot, firstTree, secondTree, firstCloned, secondCloned,
      destSupplanted, sourceSupplanted⟩
  · rw [refused]
    refine ⟨?_, rfl⟩
    rintro ⟨firstMovable, secondMovable⟩
    obtain ⟨firstSlot, firstFound⟩ :=
      wellFormed.dest.exists_slotOf_of_movable firstMovable
    obtain ⟨secondSlot, secondFound⟩ :=
      wellFormed.source.exists_slotOf_of_movable secondMovable
    exact slotless firstFound secondFound

end TreePair

namespace Tree

/-- Swapping is exact, within one tree and between two trees with different
ids. -/
theorem swap_exact :
    (∀ (tree : Tree) (first second : NodeHash), tree.WellFormed →
      Edit.Exact (tree.Exchangeable first second) True True
        (fun _ after => tree.Trades after first second) tree
        (swap first second tree)) ∧
      ∀ (pair : TreePair) (dest source : TreeId) (first second : NodeHash),
        pair.WellFormed → pair.ScopedTo dest source → dest ≠ source →
        Edit.Exact (pair.Crossable first second) (pair.MintsAll first second) True
          (fun tops after => pair.Crosses after first second tops.1 tops.2) pair
          (swapForeign first second pair) := by
  refine ⟨?_, ?_⟩
  · intro tree first second wellFormed
    exact wellFormed.swap_trades first second
  · intro pair dest source first second wellFormed scopedTo different
    exact TreePair.swapForeign_exact wellFormed scopedTo different first second

/-- The guard and the night trade places; then the night goes to the outpost, and
the lamp comes to the camp. -/
theorem night_for_lamp :
    ∃ tree lit, camp.grown watch = some tree ∧ outpost.grown lamp = some lit ∧
      (∃ after, swap ⟨"guard-1"⟩ ⟨"night-1"⟩ tree = .ok ⟨⟩ after ∧
        tree.Trades after ⟨"guard-1"⟩ ⟨"night-1"⟩) ∧
      ∃ firstThere secondHere after,
        swapForeign ⟨"night-1"⟩ ⟨"lamp-2"⟩ { dest := tree, source := lit } =
          .ok (firstThere, secondHere) after ∧
        TreePair.Crosses { dest := tree, source := lit } after ⟨"night-1"⟩
          ⟨"lamp-2"⟩ firstThere secondHere := by
  have checked :
      (camp.grown watch).any (fun tree => (outpost.grown lamp).any fun lit =>
        (swap ⟨"guard-1"⟩ ⟨"night-1"⟩).goesThrough tree &&
        (swapForeign ⟨"night-1"⟩ ⟨"lamp-2"⟩).goesThrough
          { dest := tree, source := lit }) = true := by
    decide +kernel
  obtain ⟨tree, settled, passed⟩ := (Option.any_eq_true _ _).mp checked
  obtain ⟨lit, lampSettled, passed⟩ := (Option.any_eq_true _ _).mp passed
  rw [Bool.and_eq_true, Edit.goesThrough_iff, Edit.goesThrough_iff] at passed
  obtain ⟨⟨_, after, swapped⟩, ⟨firstThere, secondHere⟩, pair, crossed⟩ := passed
  obtain ⟨wellFormed, scopedTo⟩ := of_grown settled
  obtain ⟨litWellFormed, litScopedTo⟩ := of_grown lampSettled
  have trade := swap_exact.1 tree ⟨"guard-1"⟩ ⟨"night-1"⟩ wellFormed
  rw [swapped] at trade
  have cross := swap_exact.2 { dest := tree, source := lit } ⟨1⟩ ⟨2⟩ ⟨"night-1"⟩
    ⟨"lamp-2"⟩ ⟨wellFormed, litWellFormed⟩ ⟨scopedTo, litScopedTo⟩ (by decide)
  rw [crossed] at cross
  exact ⟨tree, lit, settled, lampSettled, ⟨after, swapped, trade.2⟩, firstThere,
    secondHere, pair, crossed, cross.2⟩

/-- That both nodes can move does not keep a tree from running out of hashes. -/
theorem lamp_lost :
    ∃ tree lit, cramped.grown keptChore = some tree ∧
      outpost.grown lamp = some lit ∧
      TreePair.WellFormed { dest := tree, source := lit } ∧
      TreePair.ScopedTo ⟨1⟩ ⟨2⟩ { dest := tree, source := lit } ∧
      TreePair.Crossable { dest := tree, source := lit } ⟨"chore-1"⟩ ⟨"lamp-2"⟩ ∧
      ¬ ∃ tops after, swapForeign ⟨"chore-1"⟩ ⟨"lamp-2"⟩
        { dest := tree, source := lit } = .ok tops after := by
  have checked :
      (cramped.grown keptChore).any (fun tree => (outpost.grown lamp).any fun lit =>
        (tree.slotOf ⟨"chore-1"⟩).isOk && (lit.slotOf ⟨"lamp-2"⟩).isOk &&
        !(swapForeign ⟨"chore-1"⟩ ⟨"lamp-2"⟩).goesThrough
          { dest := tree, source := lit }) = true := by
    decide +kernel
  obtain ⟨tree, settled, passed⟩ := (Option.any_eq_true _ _).mp checked
  obtain ⟨lit, lampSettled, passed⟩ := (Option.any_eq_true _ _).mp passed
  rw [Bool.and_eq_true, Bool.and_eq_true, Bool.not_eq_true'] at passed
  obtain ⟨⟨hasSlot, lampHasSlot⟩, exhausted⟩ := passed
  obtain ⟨wellFormed, scopedTo⟩ := of_grown settled
  obtain ⟨litWellFormed, litScopedTo⟩ := of_grown lampSettled
  refine ⟨tree, lit, settled, lampSettled, ⟨wellFormed, litWellFormed⟩,
    ⟨scopedTo, litScopedTo⟩, ⟨wellFormed.movable_of_isOk hasSlot,
      litWellFormed.movable_of_isOk lampHasSlot⟩, ?_⟩
  rw [← Edit.goesThrough_iff, exhausted]
  exact Bool.false_ne_true

end Tree

end BehaviorTree
