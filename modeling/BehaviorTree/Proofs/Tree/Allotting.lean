import BehaviorTree.Proofs.Tree.Standing

/-!
# Hashes of new nodes

The nodes of a subtree that is registered get their hashes one by one, parents
first: the suggestion of a node is kept if it is free and has the scope of the
tree, and another hash is minted otherwise.  `Tree.allot` foretells the hashes and
the minter from the suggestions alone, or that the hashes run out, and
registering a subtree hands out just these.  If every suggestion can be kept, then
no hash is minted at all.
-/

namespace BehaviorTree

/-- The top node can follow the child that it designates, if there is one, when
another child comes in at the position. -/
def Subtree.HasRoom (subtree : Subtree) (position : Option Nat) : Prop :=
  subtree.kind.overflowsAt (clampPosition position subtree.children.length) = false

namespace Tree

/-- The hash of a new node and what is left of the minter: the suggestion of the
node, if it is free and has the scope of the tree, or else a minted hash. -/
def allotOne (id : TreeId) (taken : NodeHash → Bool) (minter : HashMinter)
    (hint : Option NodeHash) : Option (NodeHash × HashMinter) :=
  match hint.filter fun hash => hash.isScopedTo id && !taken hash with
  | some hash => some (hash, minter)
  | none =>
    match minter.mint taken with
    | (.ok hash, rest) => some (hash, rest)
    | (.error _, _) => none

/-- What is taken once the given hashes are so too. -/
def occupied (taken : NodeHash → Bool) (hashes : List NodeHash) :
    NodeHash → Bool :=
  fun other => hashes.contains other || taken other

/-- The hashes of new nodes, first to last; none if they run out. -/
def allot (id : TreeId) (taken : NodeHash → Bool) (minter : HashMinter) :
    List (Option NodeHash) → Option (List NodeHash × HashMinter)
  | [] => some ([], minter)
  | hint :: rest =>
    match allotOne id taken minter hint with
    | none => none
    | some (hash, minter) =>
      (allot id (occupied taken [hash]) minter rest).map fun (hashes, final) =>
        (hash :: hashes, final)

/-- There are hashes for new nodes with the given suggestions. -/
def Affords (tree : Tree) (hints : List (Option NodeHash)) : Prop :=
  (allot tree.id tree.contains tree.minter hints).isSome = true

theorem occupied_nil (taken : NodeHash → Bool) : occupied taken [] = taken := rfl

theorem occupied_append (taken : NodeHash → Bool)
    (hashes more : List NodeHash) :
    occupied taken (hashes ++ more) = occupied (occupied taken hashes) more := by
  funext other
  simp only [occupied, List.contains_append]
  rw [Bool.or_left_comm, ← Bool.or_assoc]

theorem allot_append (id : TreeId) (taken : NodeHash → Bool)
    (minter : HashMinter) (hints more : List (Option NodeHash)) :
    allot id taken minter (hints ++ more) =
      (allot id taken minter hints).bind fun (hashes, middle) =>
        (allot id (occupied taken hashes) middle more).map
          fun (others, final) => (hashes ++ others, final) := by
  induction hints generalizing taken minter with
  | nil => simp [allot, occupied_nil]
  | cons hint rest induction =>
      rw [List.cons_append, allot, allot]
      cases allotOne id taken minter hint with
      | none => rfl
      | some chosen =>
          obtain ⟨hash, middle⟩ := chosen
          simp only [induction]
          cases allot id (occupied taken [hash]) middle rest with
          | none => rfl
          | some others =>
              simp [← occupied_append, Option.map_map, Function.comp_def]

theorem free_of_allotOne {id : TreeId} {taken : NodeHash → Bool}
    {minter rest : HashMinter} {hint : Option NodeHash} {hash : NodeHash}
    (allotted : allotOne id taken minter hint = some (hash, rest)) :
    taken hash = false := by
  rw [allotOne] at allotted
  split at allotted
  · next kept isKept =>
      obtain ⟨_, free⟩ := Option.filter_eq_some_iff.mp isKept
      cases allotted
      simpa using (Bool.and_eq_true_iff.mp free).2
  · split at allotted
    · next minted =>
        cases allotted
        exact HashMinter.free_of_mint minted
    · cases allotted

/-- The hashes are distinct and were free. -/
theorem free_of_allot {id : TreeId} {taken : NodeHash → Bool}
    {minter rest : HashMinter} {hints : List (Option NodeHash)}
    {hashes : List NodeHash}
    (allotted : allot id taken minter hints = some (hashes, rest)) :
    hashes.length = hints.length ∧ hashes.Nodup ∧
      ∀ hash ∈ hashes, taken hash = false := by
  induction hints generalizing taken minter hashes with
  | nil =>
      cases allotted
      exact ⟨rfl, .nil, nofun⟩
  | cons hint more induction =>
      rw [allot] at allotted
      split at allotted
      · cases allotted
      · next hash middle first =>
          obtain ⟨⟨others, final⟩, later, same⟩ :=
            Option.map_eq_some_iff.mp allotted
          cases same
          obtain ⟨length, distinct, free⟩ := induction later
          have apart : ∀ other ∈ others, other ≠ hash ∧ taken other = false := by
            intro other member
            simpa [occupied] using free other member
          refine ⟨congrArg Nat.succ length, ?_, ?_⟩
          · exact List.nodup_cons.mpr
              ⟨fun member => (apart hash member).1 rfl, distinct⟩
          · intro other member
            rcases List.mem_cons.mp member with rfl | member
            · exact free_of_allotOne first
            · exact (apart other member).2

/-- Keeping or minting a hash hands out what `allotOne` says. -/
theorem keepOrMint_delivers (tree : Tree) (hint : Option NodeHash) :
    Edit.Delivers
      ((allotOne tree.id tree.contains tree.minter hint).isSome = true) True
      (fun hash after =>
        allotOne tree.id tree.contains tree.minter hint =
          some (hash, after.minter) ∧
        after = { tree with minter := after.minter })
      (keepOrMint hint tree) := by
  have minting : ∀ hint : Option NodeHash,
      (hint.filter fun hash => hash.isScopedTo tree.id && !tree.contains hash) =
        none →
      Edit.Delivers
        ((allotOne tree.id tree.contains tree.minter hint).isSome = true) True
        (fun hash after =>
          allotOne tree.id tree.contains tree.minter hint =
            some (hash, after.minter) ∧
          after = { tree with minter := after.minter })
        (mintHash tree) := by
    intro hint notKept
    simp only [allotOne, notKept]
    rw [mintHash, Edit.get_bind]
    cases tree.minter.mint tree.contains with
    | mk answer minter =>
        cases answer with
        | ok hash => exact ⟨rfl, rfl⟩
        | error failure => exact nofun
  cases hint with
  | none => exact minting none rfl
  | some hint =>
      rw [keepOrMint, Edit.get_bind]
      by_cases free : (hint.isScopedTo tree.id && !tree.contains hint) = true
      · rw [if_pos free]
        exact ⟨by simp only [allotOne, Option.filter_some, free, if_true], rfl⟩
      · rw [if_neg free]
        exact minting (some hint) (by rw [Option.filter_some, if_neg free])

/-- `after` is `tree` with new nodes, which got the given hashes. -/
structure Registered (tree after : Tree) (hints : List (Option NodeHash))
    (hashes : List NodeHash) : Prop where
  same : after = { tree with nodes := after.nodes, minter := after.minter }
  allotted : allot tree.id tree.contains tree.minter hints =
    some (hashes, after.minter)
  kept : ∀ {hash : NodeHash} {node : Node},
    tree.nodes[hash]? = some node → after.nodes[hash]? = some node
  contains : after.contains = occupied tree.contains hashes

theorem contains_updateNode (tree : Tree) (hash : NodeHash)
    (change : Node → Node) :
    (tree.updateNode hash change).contains = tree.contains := by
  funext other
  rw [contains_eq_isSome, contains_eq_isSome, nodes_updateNode]
  split
  · exact Option.isSome_map
  · rfl

theorem absent_updateNode {tree : Tree} {hash other : NodeHash}
    {change : Node → Node} :
    (tree.updateNode hash change).nodes[other]? = none ↔
      tree.nodes[other]? = none := by
  rw [nodes_updateNode]
  split
  · exact Option.map_eq_none_iff
  · rfl

namespace Registered

variable {tree middle after : Tree} {hints more : List (Option NodeHash)}
  {hashes others : List NodeHash}

theorem nothing (tree : Tree) : tree.Registered tree [] [] :=
  ⟨rfl, rfl, fun registered => registered, rfl⟩

theorem sameId (registered : tree.Registered after hints hashes) :
    after.id = tree.id := by
  rw [registered.same]

theorem append (first : tree.Registered middle hints hashes)
    (second : middle.Registered after more others) :
    tree.Registered after (hints ++ more) (hashes ++ others) where
  same := by
    rw [second.same, first.same]
  allotted := by
    have later := second.allotted
    rw [first.contains, first.sameId] at later
    rw [allot_append, first.allotted, Option.bind_some]
    simp only [later, Option.map_some]
  kept registered := second.kept (first.kept registered)
  contains := by
    rw [second.contains, first.contains, occupied_append]

theorem single {hint : Option NodeHash} (node : Node) {minter : HashMinter}
    (allotted : allotOne tree.id tree.contains tree.minter hint =
      some (node.hash, minter))
    (absent : tree.nodes[node.hash]? = none) :
    tree.Registered ({ tree with minter }.insertNode node) [hint]
      [node.hash] where
  same := rfl
  allotted := by
    rw [allot, allotted]
    rfl
  kept := by
    intro hash old registered
    rw [nodes_insertNode, if_neg]
    · exact registered
    · rintro rfl
      simp [absent] at registered
  contains := by
    funext other
    rw [contains_eq_isSome, nodes_insertNode, occupied, contains_eq_isSome]
    by_cases same : other = node.hash <;> simp [same]

theorem updateNode (registered : tree.Registered after hints hashes)
    {hash : NodeHash} (absent : tree.nodes[hash]? = none)
    (change : Node → Node) :
    tree.Registered (after.updateNode hash change) hints hashes where
  same := by
    rw [registered.same]
    rfl
  allotted := registered.allotted
  kept := by
    intro other node found
    rw [nodes_updateNode, if_neg]
    · exact registered.kept found
    · rintro rfl
      simp [absent] at found
  contains := by rw [contains_updateNode, registered.contains]

theorem absent_before (registered : tree.Registered after hints hashes)
    {hash : NodeHash} (absent : after.nodes[hash]? = none) :
    tree.nodes[hash]? = none := by
  cases found : tree.nodes[hash]? with
  | none => rfl
  | some node => simp [registered.kept found] at absent

theorem mem_of_registered (registered : tree.Registered after hints hashes)
    {hash : NodeHash} {node : Node} (found : after.nodes[hash]? = some node) :
    hash ∈ hashes ∨ tree.nodes[hash]? = some node := by
  have present : after.contains hash = true := by
    rw [contains_eq_isSome, found]
    rfl
  rw [registered.contains, occupied, Bool.or_eq_true, contains_eq_isSome,
    List.contains_iff_mem] at present
  refine present.imp_right fun isSome => ?_
  obtain ⟨old, oldFound⟩ := Option.isSome_iff_exists.mp isSome
  rw [oldFound, ← registered.kept oldFound, found]

theorem affords_of_append (first : tree.Registered middle hints hashes)
    (affords : tree.Affords (hints ++ more)) : middle.Affords more := by
  rw [Affords, allot_append, first.allotted] at affords
  rw [Affords, first.contains, first.sameId]
  simpa using affords

end Registered

theorem Affords.first {tree : Tree} {hints more : List (Option NodeHash)}
    (affords : tree.Affords (hints ++ more)) : tree.Affords hints := by
  rw [Affords, allot_append] at affords
  rw [Affords]
  cases given : allot tree.id tree.contains tree.minter hints with
  | none => simp [given] at affords
  | some pair => rfl

/-- `after` is `tree` with the nodes of the subtree below `parent`.  They stand
there as `placed`, under the given hashes. -/
structure Placed (tree after : Tree) (parent : NodeHash)
    (subtree placed : Subtree) (hashes : List NodeHash) : Prop extends
    tree.Registered after subtree.hints hashes where
  hinted : placed.hints = hashes.map some
  unhashed : placed.unhashed = subtree.unhashed
  stands : tree.Stands after parent placed

mutual

/-- A registered subtree stands where it was registered, under the hashes that
were handed out. -/
theorem register_placed (subtree : Subtree) (tree : Tree) (parent : NodeHash) :
    Edit.Delivers (tree.Affords subtree.hints) True
      (fun hash after => ∃ placed hashes, placed.hash = some hash ∧
        tree.Placed after parent subtree placed hashes)
      (register parent subtree tree) := by
  match subtree with
  | ⟨name, hint, weight, kind, children⟩ =>
      rw [register]
      have begun := (keepOrMint_delivers tree hint).and_completes
        (keepOrMint_spec tree hint)
      refine begun.bind (fun affords => ?_) (fun room => room) ?_
      · rw [Affords, Subtree.hints, allot] at affords
        cases given : allotOne tree.id tree.contains tree.minter hint with
        | none => simp [given] at affords
        | some chosen => rfl
      rintro hash _ ⟨⟨allotted, _⟩, absent, minter, rfl⟩
      refine .after_modify ?_
      let node : Node :=
        { name, hash, parent := some parent, children := [], weight, kind }
      let start : Tree := { tree with minter }.insertNode node
      have first : tree.Registered start [hint] [hash] :=
        .single node allotted absent
      refine ((registerEach_placed children start hash).mono ?_ (fun room => room)
        fun _ _ placed => placed).bind (fun affords => affords) (fun room => room) ?_
      · exact first.affords_of_append
      rintro hashes middle ⟨placed, all, others, listed, hinted, same, stands⟩
      refine .after_modify ?_
      have registered : tree.Registered middle
          (Subtree.hints ⟨name, hint, weight, kind, children⟩) (hash :: all) :=
        first.append others
      have nodeRegistered : middle.nodes[hash]? = some node :=
        others.kept (by simp [start, node])
      refine ⟨⟨name, some hash, weight, kind, placed⟩, hash :: all, rfl,
        { registered.updateNode absent _ with
          hinted := ?_, unhashed := ?_, stands := ?_ }⟩
      · rw [Subtree.hints, hinted, List.map_cons]
      · rw [Subtree.unhashed, Subtree.unhashed, same]
      refine .mk absent ?_ listed fun child member => ?_
      · simp [nodeRegistered, node]
      · refine (stands child member).mono
          (fun _ otherAbsent => first.absent_before otherAbsent) ?_
        intro other otherNode _ otherAbsent otherRegistered
        have different : other ≠ hash := by
          rintro rfl
          simp [start, node] at otherAbsent
        rw [nodes_updateNode, if_neg different, otherRegistered]

theorem registerEach_placed (children : List Subtree) (tree : Tree)
    (parent : NodeHash) :
    Edit.Delivers (tree.Affords (Subtree.hintsEach children)) True
      (fun hashes after => ∃ placed all,
        tree.Registered after (Subtree.hintsEach children) all ∧
        placed.map Subtree.hash = hashes.map some ∧
        Subtree.hintsEach placed = all.map some ∧
        Subtree.unhashedEach placed = Subtree.unhashedEach children ∧
        ∀ child ∈ placed, tree.Stands after parent child)
      (registerEach parent children tree) := by
  match children with
  | [] => exact ⟨[], [], .nothing tree, rfl, rfl, rfl, nofun⟩
  | child :: rest =>
      rw [registerEach]
      refine (register_placed child tree parent).bind (fun affords => affords.first)
        (fun room => room) ?_
      rintro hash middle ⟨placed, hashes, isTop, first⟩
      refine ((registerEach_placed rest middle parent).mono
        first.affords_of_append (fun room => room) fun _ _ placed => placed).bind
        (fun affords => affords) (fun room => room) ?_
      rintro tops after ⟨others, all, second, listed, hinted, same, stands⟩
      refine ⟨placed :: others, hashes ++ all, first.append second, ?_, ?_, ?_, ?_⟩
      · rw [List.map_cons, List.map_cons, isTop, listed]
      · rw [Subtree.hintsEach, first.hinted, hinted, List.map_append]
      · rw [Subtree.unhashedEach, Subtree.unhashedEach, first.unhashed, same]
      · intro other member
        rcases List.mem_cons.mp member with rfl | member
        · exact first.stands.mono (fun _ absent => absent)
            fun _ _ registered => second.kept registered
        · exact (stands other member).mono
            (fun _ absent => first.absent_before absent)
            fun _ _ registered => registered

end

namespace Placed

variable {tree after : Tree} {parent : NodeHash} {subtree placed : Subtree}
  {hashes : List NodeHash}

/-- It does not matter whether an older node is changed before or after. -/
theorem update_old (isPlaced : tree.Placed after parent subtree placed hashes)
    {hash : NodeHash} {node : Node} (registered : tree.nodes[hash]? = some node)
    (change : Node → Node) :
    (tree.updateNode hash change).Placed (after.updateNode hash change) parent
      subtree placed hashes where
  same := by
    rw [isPlaced.same]
    rfl
  allotted := by
    rw [contains_updateNode]
    exact isPlaced.allotted
  kept := by
    intro other otherNode found
    rw [nodes_updateNode] at found ⊢
    split at found
    · next here =>
        rw [here, registered, Option.map_some] at found
        rw [if_pos here, here, isPlaced.kept registered, Option.map_some, found]
    · next here => rw [if_neg here, isPlaced.kept found]
  contains := by
    rw [contains_updateNode, contains_updateNode, isPlaced.contains]
  hinted := isPlaced.hinted
  unhashed := isPlaced.unhashed
  stands := by
    refine isPlaced.stands.mono (fun _ absent => absent_updateNode.mpr absent) ?_
    intro other otherNode _ absent found
    rw [nodes_updateNode, if_neg, found]
    rintro rfl
    simp [absent] at registered

/-- The top node of a registered subtree. -/
theorem top (isPlaced : tree.Placed after parent subtree placed hashes)
    {hash : NodeHash} (isTop : placed.hash = some hash) :
    ∃ tops, tree.nodes[hash]? = none ∧
      after.nodes[hash]? = some
        { name := subtree.name, hash, parent := some parent, children := tops
          weight := subtree.weight, kind := subtree.kind } ∧
      placed.children.map Subtree.hash = tops.map some ∧
      Subtree.unhashedEach placed.children =
        Subtree.unhashedEach subtree.children ∧
      ∀ child ∈ placed.children, tree.Stands after hash child := by
  have same := isPlaced.unhashed
  cases isPlaced.stands with
  | @mk _ _ _ _ _ _ tops free registered listed below =>
      obtain rfl := Option.some.inj isTop
      cases subtree
      rw [Subtree.unhashed, Subtree.unhashed] at same
      obtain ⟨rfl, _, rfl, rfl, sameChildren⟩ := Subtree.mk.inj same
      exact ⟨tops, free, registered, listed, sameChildren, below⟩

end Placed

theorem length_tops {placed subtree : Subtree} {tops : List NodeHash}
    (listed : placed.children.map Subtree.hash = tops.map some)
    (same : Subtree.unhashedEach placed.children =
      Subtree.unhashedEach subtree.children) :
    tops.length = subtree.children.length := by
  have listedCount := congrArg List.length listed
  have sameCount := congrArg List.length same
  rw [List.length_map, List.length_map] at listedCount
  rw [Subtree.unhashedEach_eq, Subtree.unhashedEach_eq, List.length_map,
    List.length_map] at sameCount
  exact listedCount.symm.trans sameCount

/-- Attaching puts the subtree into the tree in which the target lists it. -/
theorem attach_placed {tree : Tree} {target : NodeHash} {node : Node}
    (registered : tree.nodes[target]? = some node) (subtree : Subtree)
    (position : Option Nat) :
    Edit.Delivers (tree.Affords subtree.hints) (node.HasRoom position)
      (fun hash after => node.HasRoom position ∧
        ∃ placed hashes, placed.hash = some hash ∧
          (tree.updateNode target fun node =>
            node.withChild (clampPosition position node.children.length)
              hash).Placed after target subtree placed hashes)
      (attach subtree target position tree) := by
  unfold attach
  refine (register_placed subtree tree target).bind (fun affords => affords)
    (fun _ => trivial) ?_
  rintro hash middle ⟨placed, hashes, isTop, isPlaced⟩
  refine (insertInto_delivers (isPlaced.kept registered) position hash).bind
    (fun _ => trivial) (fun room => room) ?_
  rintro _ _ ⟨room, rfl⟩
  exact ⟨room, placed, hashes, isTop, isPlaced.update_old registered _⟩

/-- The tree in which the target has left its slot to a host above it. -/
def handOver (tree : Tree) (target : NodeHash) (slot : Slot)
    (host : NodeHash) : Tree :=
  (tree.updateNode slot.parent (·.hostChild slot.index host)).updateNode target
    fun node => { node with parent := some host }

/-- Splicing puts the subtree into the tree in which the target has left its
slot, and has its top node list the target. -/
theorem spliceAbove_placed {tree : Tree} {target : NodeHash} {slot : Slot}
    (found : tree.slotOf target = .ok slot) (subtree : Subtree)
    (position : Option Nat) :
    Edit.Delivers (tree.Affords subtree.hints) (subtree.HasRoom position)
      (fun host after => subtree.HasRoom position ∧
        ∃ middle placed hashes, placed.hash = some host ∧
          (tree.handOver target slot host).Placed middle slot.parent subtree placed
            hashes ∧
          after = middle.updateNode host fun node =>
            node.withChild (clampPosition position node.children.length) target)
      (spliceAbove subtree target position tree) := by
  obtain ⟨above, parentNode, parentRegistered, _⟩ := of_slotOf found
  obtain ⟨targetNode, targetRegistered, _⟩ := registered_of_parentOf above
  unfold spliceAbove
  rw [Edit.get_bind, found]
  refine (register_placed subtree tree slot.parent).bind (fun affords => affords)
    (fun _ => trivial) ?_
  rintro host middle ⟨placed, hashes, isTop, isPlaced⟩
  refine .after_modify (.after_modify ?_)
  have parentChanged := isPlaced.update_old parentRegistered
    (·.hostChild slot.index host)
  obtain ⟨changed, isChanged⟩ : ∃ changed,
      (tree.updateNode slot.parent
        (·.hostChild slot.index host)).nodes[target]? = some changed := by
    rw [nodes_updateNode, targetRegistered]
    split <;> exact ⟨_, rfl⟩
  have handed := parentChanged.update_old isChanged fun node =>
    { node with parent := some host }
  obtain ⟨tops, _, hostNow, listed, same, _⟩ := handed.top isTop
  have delivers := insertInto_delivers hostNow position target
  rw [Node.HasRoom, length_tops listed same] at delivers
  refine delivers.bind (fun _ => trivial) (fun room => room) ?_
  rintro _ _ ⟨room, rfl⟩
  exact ⟨room, _, placed, hashes, isTop, handed, rfl⟩

theorem fillSlot_placed {tree : Tree} {slot : Slot} {node : Node}
    (registered : tree.nodes[slot.parent]? = some node) (subtree : Subtree) :
    Edit.Delivers (tree.Affords subtree.hints) True
      (fun hash after => ∃ placed hashes, placed.hash = some hash ∧
        (tree.updateNode slot.parent
          (·.replaceChild slot.index hash)).Placed after slot.parent subtree
          placed hashes)
      (fillSlot slot subtree tree) := by
  unfold fillSlot
  refine (register_placed subtree tree slot.parent).bind (fun affords => affords)
    (fun room => room) ?_
  rintro hash middle ⟨placed, hashes, isTop, isPlaced⟩
  exact .after_modify ⟨placed, hashes, isTop, isPlaced.update_old registered _⟩

/-- Every suggestion can be kept: they are distinct, free, and in the scope of
the tree. -/
structure Suits (tree : Tree) (hints : List (Option NodeHash)) : Prop where
  distinct : hints.Nodup
  free : ∀ hint ∈ hints, ∃ hash, hint = some hash ∧
    hash.isScopedTo tree.id = true ∧ tree.nodes[hash]? = none

theorem allot_of_free {id : TreeId} {taken : NodeHash → Bool}
    (minter : HashMinter) {hashes : List NodeHash} (distinct : hashes.Nodup)
    (free : ∀ hash ∈ hashes, hash.isScopedTo id = true ∧ taken hash = false) :
    allot id taken minter (hashes.map some) = some (hashes, minter) := by
  induction hashes generalizing taken with
  | nil => rfl
  | cons hash rest induction =>
      obtain ⟨fresh, distinct⟩ := List.nodup_cons.mp distinct
      obtain ⟨inScope, notTaken⟩ := free hash List.mem_cons_self
      have kept : allotOne id taken minter (some hash) = some (hash, minter) := by
        rw [allotOne, Option.filter_some, inScope, notTaken]
        rfl
      have others : ∀ other ∈ rest, other.isScopedTo id = true ∧
          occupied taken [hash] other = false := by
        intro other member
        obtain ⟨otherInScope, otherFree⟩ :=
          free other (List.mem_cons_of_mem _ member)
        have different : other ≠ hash := by
          rintro rfl
          exact fresh member
        exact ⟨otherInScope, by simp [occupied, different, otherFree]⟩
      rw [List.map_cons, allot, kept]
      simp only [induction distinct others, Option.map_some]

theorem Suits.allot_eq {tree : Tree} {hints : List (Option NodeHash)}
    (suits : tree.Suits hints) : ∃ hashes, hints = hashes.map some ∧
      allot tree.id tree.contains tree.minter hints =
        some (hashes, tree.minter) := by
  obtain ⟨hashes, rfl⟩ := Subtree.exists_map_some fun hint member =>
    (suits.free hint member).imp fun _ free => free.1
  refine ⟨hashes, rfl, allot_of_free _ ?_ fun hash member => ?_⟩
  · exact List.Nodup.of_map _ suits.distinct
  · obtain ⟨other, same, inScope, absent⟩ :=
      suits.free (some hash) (List.mem_map_of_mem member)
    obtain rfl := Option.some.inj same
    exact ⟨inScope, contains_eq_false_iff.mpr absent⟩

theorem Suits.affords {tree : Tree} {hints : List (Option NodeHash)}
    (suits : tree.Suits hints) : tree.Affords hints := by
  obtain ⟨hashes, _, allotted⟩ := suits.allot_eq
  rw [Affords, allotted]
  rfl

theorem Placed.of_suits {tree after : Tree} {parent : NodeHash}
    {subtree placed : Subtree} {hashes : List NodeHash}
    (isPlaced : tree.Placed after parent subtree placed hashes)
    (suits : tree.Suits subtree.hints) :
    placed = subtree ∧ after.minter = tree.minter := by
  obtain ⟨kept, hinted, allotted⟩ := suits.allot_eq
  rw [isPlaced.allotted, Option.some.injEq, Prod.mk.injEq] at allotted
  obtain ⟨rfl, sameMinter⟩ := allotted
  have sameHints : placed.hints ++ [] = subtree.hints ++ [] := by
    rw [isPlaced.hinted, hinted]
  exact ⟨(Subtree.eq_of_hints _ _ isPlaced.unhashed sameHints).1, sameMinter⟩

end Tree

end BehaviorTree
