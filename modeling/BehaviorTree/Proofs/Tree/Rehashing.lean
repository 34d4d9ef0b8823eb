import BehaviorTree.Proofs.Tree.Admitting

/-!
# Which nodes are rehashed

A node that comes into a tree keeps its hash if this is in the scope of the tree, is
not registered there, and has not been suggested by a node of the subtree before it
nor been minted for one.  Every other node gets a hash that is minted for it, from
what the nodes before it have left of the minter.
-/

namespace BehaviorTree

namespace Tree

/-- The node at the index suggests a hash that can be kept. -/
def Keepable (id : TreeId) (taken : NodeHash → Bool) (hints : List (Option NodeHash))
    (hashes : List NodeHash) (index : Nat) : Prop :=
  ∃ own, hints[index]? = some (some own) ∧ own.isScopedTo id = true ∧
    taken own = false ∧
    ∀ earlier < index, hints[earlier]? ≠ some (some own) ∧ hashes[earlier]? ≠ some own

/-- New nodes with the given hints got the given hashes.  Going from node to node,
the minter is left alone where a hash is kept, and yields the hash elsewhere. -/
structure Rehashed (id : TreeId) (taken : NodeHash → Bool) (before : HashMinter)
    (hints : List (Option NodeHash)) (hashes : List NodeHash) (after : HashMinter) :
    Prop where
  length : hashes.length = hints.length
  distinct : hashes.Nodup
  fresh : ∀ hash ∈ hashes, taken hash = false ∧ hash.isScopedTo id = true
  keeps : ∀ {index : Nat} {hash : NodeHash}, hashes[index]? = some hash →
    (hints[index]? = some (some hash) ↔ Keepable id taken hints hashes index)
  mints : ∃ minter : Nat → HashMinter,
    minter 0 = before ∧ minter hints.length = after ∧
    ∀ {index : Nat} {hash : NodeHash}, hashes[index]? = some hash →
      (Keepable id taken hints hashes index → minter (index + 1) = minter index) ∧
      (¬ Keepable id taken hints hashes index →
        (minter index).mint (occupied taken (hashes.take index)) =
          (.ok hash, minter (index + 1)))

/-- A node gets its hint or a minted hash. -/
theorem allotOne_cases {id : TreeId} {taken : NodeHash → Bool}
    {minter rest : HashMinter} {hint : Option NodeHash} {hash : NodeHash}
    (allotted : allotOne id taken minter hint = some (hash, rest)) :
    (hint = some hash ∧ hash.isScopedTo id = true ∧ taken hash = false ∧
      rest = minter) ∨
    ((∀ own, hint = some own → own.isScopedTo id = true → taken own = true) ∧
      minter.mint taken = (.ok hash, rest)) := by
  rw [allotOne] at allotted
  split at allotted
  · next kept isKept =>
      obtain ⟨isHint, free⟩ := Option.filter_eq_some_iff.mp isKept
      obtain ⟨inScope, notTaken⟩ := Bool.and_eq_true_iff.mp free
      cases allotted
      exact .inl ⟨isHint, inScope, (Bool.not_eq_true' _).mp notTaken, rfl⟩
  · next notKept =>
      split at allotted
      · next minted =>
          cases allotted
          refine .inr ⟨?_, minted⟩
          rintro own rfl inScope
          rw [Option.filter_some, inScope, Bool.true_and] at notKept
          cases isTaken : taken own with
          | true => rfl
          | false =>
              rw [isTaken] at notKept
              cases notKept
      · cases allotted

theorem occupied_take_iff {taken : NodeHash → Bool} {hashes : List NodeHash}
    {index : Nat} {own : NodeHash} :
    occupied taken (hashes.take index) own = true ↔
      taken own = true ∨ ∃ earlier < index, hashes[earlier]? = some own := by
  rw [occupied, Bool.or_eq_true, List.contains_iff_mem, List.mem_iff_getElem?, or_comm]
  refine or_congr_right (exists_congr fun earlier => ?_)
  rw [List.getElem?_take]
  split
  · next before => exact (and_iff_right before).symm
  · next beyond => exact iff_of_false (Option.some_ne_none own).symm (beyond ·.1)

/-- Handing out hashes does not change the scope. -/
theorem scope_allot {id : TreeId} {taken : NodeHash → Bool}
    {before after : HashMinter} {hints : List (Option NodeHash)}
    {hashes : List NodeHash}
    (allotted : allot id taken before hints = some (hashes, after)) :
    after.scope = before.scope := by
  induction hints generalizing taken before hashes with
  | nil =>
      cases allotted
      rfl
  | cons hint rest induction =>
      rw [allot] at allotted
      split at allotted
      · cases allotted
      · next hash middle first =>
          obtain ⟨⟨others, final⟩, later, same⟩ := Option.map_eq_some_iff.mp allotted
          cases same
          rw [induction later]
          rcases allotOne_cases first with ⟨_, _, _, rfl⟩ | ⟨_, minted⟩
          · rfl
          · rw [← HashMinter.scope_mint taken before, minted]

/-- What is left of the minter when the nodes up to the index have got their
hashes. -/
def minterAt (id : TreeId) (taken : NodeHash → Bool) (before : HashMinter)
    (hints : List (Option NodeHash)) (index : Nat) : HashMinter :=
  ((allot id taken before (hints.take index)).map Prod.snd).getD before

section Allotted

variable {id : TreeId} {taken : NodeHash → Bool} {before after : HashMinter}
  {hints : List (Option NodeHash)} {hashes : List NodeHash}
  (allotted : allot id taken before hints = some (hashes, after))
include allotted

/-- The nodes up to the index get their hashes first, and the others get theirs from
what is left. -/
theorem allot_take {index : Nat} (bound : index ≤ hints.length) :
    allot id taken before (hints.take index) =
      some (hashes.take index, minterAt id taken before hints index) ∧
    allot id (occupied taken (hashes.take index)) (minterAt id taken before hints index)
      (hints.drop index) = some (hashes.drop index, after) := by
  have split := allot_append id taken before (hints.take index) (hints.drop index)
  rw [List.take_append_drop, allotted] at split
  obtain ⟨⟨first, middle⟩, given, later⟩ := Option.bind_eq_some_iff.mp split.symm
  obtain ⟨⟨others, final⟩, rest, same⟩ := Option.map_eq_some_iff.mp later
  obtain ⟨rfl, rfl⟩ := Prod.mk.inj same
  have length := (free_of_allot given).1
  rw [List.length_take, Nat.min_eq_left bound] at length
  have isMiddle : minterAt id taken before hints index = middle := by
    rw [minterAt, given]
    rfl
  rw [List.take_left' length, List.drop_left' length, isMiddle]
  exact ⟨given, rest⟩

/-- What the node at the index gets, from what the nodes before it have left. -/
theorem allot_at {index : Nat} {hint : Option NodeHash} {hash : NodeHash}
    (hinted : hints[index]? = some hint) (given : hashes[index]? = some hash) :
    allotOne id (occupied taken (hashes.take index))
      (minterAt id taken before hints index) hint =
        some (hash, minterAt id taken before hints (index + 1)) := by
  obtain ⟨bound, isHint⟩ := List.getElem?_eq_some_iff.mp hinted
  obtain ⟨hashBound, isHash⟩ := List.getElem?_eq_some_iff.mp given
  have next := (allot_take allotted bound).1
  rw [List.take_succ_eq_append_getElem bound, allot_append,
    (allot_take allotted (Nat.le_of_lt bound)).1, Option.bind_some, isHint,
    List.take_succ_eq_append_getElem hashBound, isHash] at next
  obtain ⟨⟨others, final⟩, single, same⟩ := Option.map_eq_some_iff.mp next
  obtain ⟨sameHashes, rfl⟩ := Prod.mk.inj same
  obtain rfl := List.append_cancel_left sameHashes
  rw [allot] at single
  split at single
  · cases single
  · next first =>
      cases single
      exact first

theorem exists_hash {index : Nat} {hint : Option NodeHash}
    (hinted : hints[index]? = some hint) : ∃ hash, hashes[index]? = some hash := by
  obtain ⟨bound, _⟩ := List.getElem?_eq_some_iff.mp hinted
  rw [← (free_of_allot allotted).1] at bound
  exact ⟨_, List.getElem?_eq_getElem bound⟩

theorem occupied_of_suggested {earlier index : Nat} {own : NodeHash}
    (before : earlier < index) (inScope : own.isScopedTo id = true)
    (suggested : hints[earlier]? = some (some own)) :
    occupied taken (hashes.take index) own = true := by
  rw [occupied_take_iff]
  obtain ⟨hash, given⟩ := exists_hash allotted suggested
  rcases allotOne_cases (allot_at allotted suggested given) with
    ⟨isOwn, _⟩ | ⟨notKept, _⟩
  · exact .inr ⟨earlier, before, Option.some.inj isOwn ▸ given⟩
  · have already := notKept own rfl inScope
    rw [occupied_take_iff] at already
    exact already.imp_right fun ⟨first, sooner, handed⟩ =>
      ⟨first, Nat.lt_trans sooner before, handed⟩

theorem keepable_iff {index : Nat} {hint : Option NodeHash}
    (hinted : hints[index]? = some hint) :
    Keepable id taken hints hashes index ↔
      ∃ own, hint = some own ∧ own.isScopedTo id = true ∧
        occupied taken (hashes.take index) own = false := by
  refine exists_congr fun own => ?_
  rw [hinted, Option.some.injEq]
  refine and_congr_right fun _ => and_congr_right fun inScope => ?_
  rw [← Bool.not_eq_true (occupied _ _ _), occupied_take_iff, not_or,
    Bool.not_eq_true]
  constructor
  · rintro ⟨free, unused⟩
    exact ⟨free, fun ⟨earlier, before, handed⟩ => (unused earlier before).2 handed⟩
  · rintro ⟨free, unused⟩
    refine ⟨free, fun earlier before =>
      ⟨fun suggested => ?_, fun handed => unused ⟨earlier, before, handed⟩⟩⟩
    have taken := occupied_of_suggested allotted before inScope suggested
    rw [occupied_take_iff, free] at taken
    exact unused (taken.resolve_left Bool.false_ne_true)

/-- The hashes that are handed out are those of a rehashing. -/
theorem rehashed_of_allot (sameScope : before.scope = id) :
    Rehashed id taken before hints hashes after := by
  obtain ⟨length, distinct, free⟩ := free_of_allot allotted
  -- At each node, either its hint is kept and the minter is left alone, or not.
  have cases : ∀ {index : Nat} {hash : NodeHash}, hashes[index]? = some hash →
      ∃ hint, hints[index]? = some hint ∧ hash.isScopedTo id = true ∧
        ((hint = some hash ∧ Keepable id taken hints hashes index ∧
          minterAt id taken before hints (index + 1) =
            minterAt id taken before hints index) ∨
        (hint ≠ some hash ∧ ¬ Keepable id taken hints hashes index ∧
          (minterAt id taken before hints index).mint
            (occupied taken (hashes.take index)) =
              (.ok hash, minterAt id taken before hints (index + 1)))) := by
    intro index hash given
    obtain ⟨bound, _⟩ := List.getElem?_eq_some_iff.mp given
    rw [length] at bound
    have hinted := List.getElem?_eq_getElem bound
    have first := allot_at allotted hinted given
    refine ⟨hints[index], hinted, ?_⟩
    have iff := keepable_iff allotted hinted
    rcases allotOne_cases first with ⟨isHint, inScope, free, same⟩ | ⟨notKept, minted⟩
    · exact ⟨inScope, .inl ⟨isHint, iff.mpr ⟨hash, isHint, inScope, free⟩, same⟩⟩
    · have scopeHere := scope_allot (allot_take allotted (Nat.le_of_lt bound)).1
      have inScope := HashMinter.isScopedTo_of_mint minted
      rw [scopeHere, sameScope] at inScope
      have unkept : ¬ ∃ own, hints[index] = some own ∧ own.isScopedTo id = true ∧
          occupied taken (hashes.take index) own = false := by
        rintro ⟨own, isHint, ownInScope, free⟩
        rw [notKept own isHint ownInScope] at free
        cases free
      refine ⟨inScope, .inr ⟨fun isHint => unkept ⟨hash, isHint, inScope, ?_⟩,
        mt iff.mp unkept, minted⟩⟩
      exact free_of_allotOne first
  refine
    { length, distinct
      fresh := ?_
      keeps := ?_
      mints := ⟨minterAt id taken before hints, rfl, ?_, ?_⟩ }
  · intro hash member
    obtain ⟨index, given⟩ := List.mem_iff_getElem?.mp member
    obtain ⟨_, _, inScope, _⟩ := cases given
    exact ⟨free hash member, inScope⟩
  · intro index hash given
    obtain ⟨hint, hinted, _, ⟨isHint, keepable, _⟩ | ⟨notHint, notKeepable, _⟩⟩ :=
      cases given
    · rw [hinted, isHint]
      exact iff_of_true rfl keepable
    · rw [hinted, Option.some.injEq]
      exact iff_of_false notHint notKeepable
  · rw [minterAt, List.take_length, allotted]
    rfl
  · intro index hash given
    obtain ⟨_, _, _, ⟨_, keepable, same⟩ | ⟨_, notKeepable, minted⟩⟩ := cases given
    · exact ⟨fun _ => same, fun notKeepable => absurd keepable notKeepable⟩
    · exact ⟨fun keepable => absurd keepable notKeepable, fun _ => minted⟩

end Allotted

/-- The nodes of the subtree are registered as those of `placed`, under hashes that
were handed out once the node that leaves, if there is one, had left. -/
structure TakesIn (tree after : Tree) (leaving : Option NodeHash)
    (subtree placed : Subtree) (hashes : List NodeHash) : Prop where
  rehashed : Rehashed tree.id (tree.remainingAfter leaving) tree.minter
    subtree.hints hashes after.minter
  hinted : placed.hints = hashes.map some
  unhashed : placed.unhashed = subtree.unhashed
  contains : after.contains = occupied (tree.remainingAfter leaving) hashes

/-- The top node of the subtree stands above the target, which it lists beside its
own children. -/
def StandsAbove (after : Tree) (placed : Subtree) (target : NodeHash)
    (position : Option Nat) (host : NodeHash) : Prop :=
  placed.hash = some host ∧ after.parentOf target = some host ∧
    ∃ tops : List NodeHash, after.childrenOf host =
        tops.insertIdx (clampPosition position tops.length) target ∧
      tops.map after.cloneSubtree = placed.children.map some

/-- How the edits of a tree rehash the nodes that come in. -/
structure EditsRehash (tree : Tree) : Prop where
  adding : ∀ (origin : NodeOrigin) (target : NodeHash) (position : Option Nat)
    (copying : Bool), Edit.Upholds tree
      (fun top after => ∃ subtree placed hashes,
        tree.incoming origin = some subtree ∧
        tree.TakesIn after (leaving copying origin) subtree placed hashes ∧
        after.cloneSubtree top = some placed)
      (add origin target position copying tree)
  interposing : ∀ (origin : NodeOrigin) (target : NodeHash) (position : Option Nat)
    (copying : Bool), Edit.Upholds tree
      (fun host after => ∃ subtree placed hashes,
        tree.incoming origin = some subtree ∧
        tree.TakesIn after (leaving copying origin) subtree placed hashes ∧
        after.StandsAbove placed target position host)
      (interpose origin target position copying tree)

section TakenIn

variable {tree base : Tree} {leaving : Option NodeHash}
  (wellFormed : tree.WellFormed) (sameScope : tree.minter.scope = tree.id)
  (vacates : tree.Vacates leaving base)
include wellFormed sameScope vacates

theorem Placed.takesIn {current after : Tree} {parent : NodeHash}
    {subtree placed : Subtree} {hashes : List NodeHash}
    (isPlaced : current.Placed after parent subtree placed hashes)
    (same : current = { base with nodes := current.nodes })
    (contains : current.contains = base.contains) :
    tree.TakesIn after leaving subtree placed hashes where
  rehashed := by
    have allotted := isPlaced.allotted
    rw [contains, vacates.contains_eq wellFormed, same, vacates.same] at allotted
    exact rehashed_of_allot allotted sameScope
  hinted := isPlaced.hinted
  unhashed := isPlaced.unhashed
  contains := by
    rw [isPlaced.contains, contains, vacates.contains_eq wellFormed]

theorem Admitted.takesIn {after : Tree} {target top : NodeHash}
    {position : Option Nat} {subtree placed : Subtree} {hashes : List NodeHash}
    (admitted : base.Admitted after target position subtree placed hashes top) :
    tree.TakesIn after leaving subtree placed hashes :=
  admitted.isPlaced.takesIn wellFormed sameScope vacates rfl
    (contains_updateNode _ _ _)

theorem Hosted.takesIn {middle after : Tree} {target host : NodeHash}
    {slot : Slot} {position : Option Nat} {subtree placed : Subtree}
    {hashes : List NodeHash}
    (hosted : base.Hosted middle after target host slot position subtree placed
      hashes) :
    tree.TakesIn after leaving subtree placed hashes := by
  have takesIn := hosted.isPlaced.takesIn wellFormed sameScope vacates rfl <| by
    rw [handOver, contains_updateNode, contains_updateNode]
  have sameMinter : after.minter = middle.minter := by
    rw [hosted.isAfter]
    rfl
  refine { takesIn with rehashed := ?_, contains := ?_ }
  · rw [sameMinter]
    exact takesIn.rehashed
  · rw [hosted.isAfter, contains_updateNode, takesIn.contains]

omit sameScope in
theorem Hosted.standsAbove {middle after : Tree} {target host : NodeHash}
    {slot : Slot} {position : Option Nat} {subtree placed : Subtree}
    {hashes : List NodeHash}
    (hosted : base.Hosted middle after target host slot position subtree placed
      hashes) (laterWellFormed : after.WellFormed) :
    after.StandsAbove placed target position host := by
  obtain ⟨tops, hostNow, listed, _, below⟩ := hosted.nodes_host
  obtain ⟨targetNode, registered, _⟩ :=
    registered_of_parentOf (of_slotOf hosted.found).1
  have targetNow :=
    hosted.nodes_old (vacates.wellFormed_after wellFormed) registered
  rw [if_pos rfl] at targetNow
  refine ⟨hosted.isTop, parentOf_eq targetNow, tops, childrenOf_eq hostNow, ?_⟩
  exact map_of_listed listed fun child member _ isTop =>
    (below child member).cloneSubtree_eq laterWellFormed isTop

end TakenIn

theorem WellFormed.editsRehash {tree : Tree} (wellFormed : tree.WellFormed)
    (sameScope : tree.minter.scope = tree.id) : tree.EditsRehash where
  adding := by
    intro origin target position copying
    refine ((wellFormed.add_admits origin target position copying).and
      (wellFormed.add_upholds position copying origin target)).mono ?_
    rintro top after
      ⟨⟨base, subtree, placed, hashes, vacates, comes, admitted⟩, laterWellFormed⟩
    exact ⟨subtree, placed, hashes, comes,
      admitted.takesIn wellFormed sameScope vacates,
      admitted.isPlaced.stands.cloneSubtree_eq laterWellFormed admitted.isTop⟩
  interposing := by
    intro origin target position copying
    refine ((wellFormed.interpose_admits origin target position copying).and
      (wellFormed.interpose_upholds position copying origin target)).mono ?_
    rintro host after ⟨⟨base, middle, slot, subtree, placed, hashes, vacates, comes,
      hosted⟩, laterWellFormed⟩
    exact ⟨subtree, placed, hashes, comes,
      hosted.takesIn wellFormed sameScope vacates,
      hosted.standsAbove wellFormed vacates laterWellFormed⟩

end Tree

namespace TreePair

open BehaviorTree.Tree

/-- How the edits of two trees rehash the nodes that come in from the second. -/
structure EditsRehash (pair : TreePair) : Prop where
  adding : ∀ (hash target : NodeHash) (position : Option Nat) (copying : Bool),
    Edit.Upholds pair
      (fun top after => ∃ subtree placed hashes,
        pair.source.cloneSubtree hash = some subtree ∧
        pair.dest.TakesIn after.dest none subtree placed hashes ∧
        after.dest.cloneSubtree top = some placed)
      (addForeign hash target position copying pair)
  interposing : ∀ (hash target : NodeHash) (position : Option Nat) (copying : Bool),
    Edit.Upholds pair
      (fun host after => ∃ subtree placed hashes,
        pair.source.cloneSubtree hash = some subtree ∧
        pair.dest.TakesIn after.dest none subtree placed hashes ∧
        after.dest.StandsAbove placed target position host)
      (interposeForeign hash target position copying pair)

theorem WellFormed.editsRehash {pair : TreePair} (wellFormed : pair.WellFormed)
    (sameScope : pair.dest.minter.scope = pair.dest.id) : pair.EditsRehash where
  adding := by
    intro hash target position copying
    refine ((addForeign_admits wellFormed hash target position copying).and
      (addForeign_upholds wellFormed position copying hash target)).mono ?_
    rintro top after
      ⟨⟨subtree, placed, hashes, cloned, _, admitted⟩, laterWellFormed⟩
    exact ⟨subtree, placed, hashes, cloned,
      admitted.takesIn wellFormed.dest sameScope .unmoved,
      admitted.isPlaced.stands.cloneSubtree_eq laterWellFormed.dest admitted.isTop⟩
  interposing := by
    intro hash target position copying
    refine ((interposeForeign_admits wellFormed hash target position copying).and
      (interposeForeign_upholds wellFormed position copying hash target)).mono ?_
    rintro host after
      ⟨⟨middle, slot, subtree, placed, hashes, cloned, _, hosted⟩, laterWellFormed⟩
    exact ⟨subtree, placed, hashes, cloned,
      hosted.takesIn wellFormed.dest sameScope .unmoved,
      hosted.standsAbove wellFormed.dest .unmoved laterWellFormed.dest⟩

end TreePair

namespace Tree

/-- Rehashing is exact, for whatever comes in. -/
theorem rehashing_exact :
    (∀ (tree : Tree) (id : TreeId), tree.WellFormed → tree.ScopedTo id →
      tree.EditsRehash) ∧
      ∀ (pair : TreePair) (dest source : TreeId), pair.WellFormed →
        pair.ScopedTo dest source → pair.EditsRehash := by
  constructor
  · intro tree id wellFormed scopedTo
    exact wellFormed.editsRehash (scopedTo.minting.trans scopedTo.own.symm)
  · intro pair dest source wellFormed scopedTo
    exact TreePair.WellFormed.editsRehash wellFormed
      (scopedTo.dest.minting.trans scopedTo.dest.own.symm)

/-- A relief who claims to be the guard, with two spares under one name. -/
def relief : Subtree :=
  { name := "relief", hash := some ⟨"guard-1"⟩, kind := .sequence
    children :=
      [{ name := "spare", hash := some ⟨"spare-1"⟩, kind := .command "mark_a" },
       { name := "twin", hash := some ⟨"spare-1"⟩, kind := .command "mark_b" }] }

/-- The relief and the second spare do not keep their hashes; the guard is copied to
the outpost. -/
theorem relief_rehashed :
    ∃ tree top after placed hashes, camp.grown watch = some tree ∧
      add (.detached relief) ⟨"night-1"⟩ none false tree = .ok top after ∧
      tree.TakesIn after none relief placed hashes ∧
      hashes[0]? ≠ some ⟨"guard-1"⟩ ∧ hashes[2]? ≠ some ⟨"spare-1"⟩ ∧
      ∃ there pair subtree copy others,
        addForeign ⟨"guard-1"⟩ outpost.root none true
          { dest := outpost, source := tree } = .ok there pair ∧
        tree.cloneSubtree ⟨"guard-1"⟩ = some subtree ∧
        outpost.TakesIn pair.dest none subtree copy others := by
  have checked :
      (camp.grown watch).any (fun tree =>
        (add (.detached relief) ⟨"night-1"⟩ none false).goesThrough tree &&
        (addForeign ⟨"guard-1"⟩ outpost.root none true).goesThrough
          { dest := outpost, source := tree } &&
        tree.contains ⟨"guard-1"⟩) = true := by
    decide +kernel
  obtain ⟨tree, settled, passed⟩ := (Option.any_eq_true _ _).mp checked
  simp only [Bool.and_eq_true, Edit.goesThrough_iff] at passed
  obtain ⟨⟨⟨top, after, added⟩, there, pair, copied⟩, present⟩ := passed
  obtain ⟨wellFormed, scopedTo⟩ := of_grown settled
  have adding := (rehashing_exact.1 tree ⟨1⟩ wellFormed scopedTo).adding
    (.detached relief) ⟨"night-1"⟩ none false
  have copying := (rehashing_exact.2 { dest := outpost, source := tree } ⟨2⟩ ⟨1⟩
    ⟨.build _ _ _, wellFormed⟩ ⟨.build _ _ _, scopedTo⟩).adding ⟨"guard-1"⟩
      outpost.root none true
  rw [added] at adding
  rw [copied] at copying
  obtain ⟨_, placed, hashes, ⟨⟩, takesIn, _⟩ := adding
  obtain ⟨subtree, copy, others, cloned, arrived, _⟩ := copying
  refine ⟨tree, top, after, placed, hashes, settled, added, takesIn, ?_, ?_, there,
    pair, subtree, copy, others, copied, cloned, arrived⟩
  · intro kept
    obtain ⟨own, suggested, _, free, _⟩ := (takesIn.rehashed.keeps kept).mp rfl
    obtain rfl : ⟨"guard-1"⟩ = own := Option.some.inj (Option.some.inj suggested)
    exact Bool.false_ne_true (free.symm.trans present)
  · intro kept
    obtain ⟨own, suggested, _, _, first⟩ := (takesIn.rehashed.keeps kept).mp rfl
    exact (first 1 (by decide)).1 suggested

/-- One who travels under the hash that will be minted for the ship. -/
def ship : Subtree :=
  { name := "ship", kind := .sequence
    children :=
      [{ name := "stowaway", hash := some ⟨"lgnl-1"⟩, kind := .command "mark_a" }] }

/-- That a hash is in scope, free, and suggested by one node only does not keep it
from being minted for another one. -/
theorem stowaway_rehashed :
    (⟨"lgnl-1"⟩ : NodeHash).isScopedTo camp.id = true ∧
      camp.contains ⟨"lgnl-1"⟩ = false ∧ ship.hints = [none, some ⟨"lgnl-1"⟩] ∧
      ∃ top after placed,
        add (.detached ship) camp.root none false camp = .ok top after ∧
        after.cloneSubtree top = some placed ∧
        placed.hints = [some ⟨"lgnl-1"⟩, some ⟨"r4lo-1"⟩] := by
  have checked :
      (match add (.detached ship) camp.root none false camp with
        | .ok top after => (after.cloneSubtree top).any fun placed =>
            decide (placed.hints = [some ⟨"lgnl-1"⟩, some ⟨"r4lo-1"⟩])
        | .error _ _ => false) = true := by
    decide +kernel
  refine ⟨by decide +kernel, by decide +kernel, rfl, ?_⟩
  split at checked
  · next top after added =>
      obtain ⟨placed, cloned, rehashed⟩ := (Option.any_eq_true _ _).mp checked
      exact ⟨top, after, placed, added, cloned, of_decide_eq_true rehashed⟩
  · cases checked

end Tree

end BehaviorTree
