import BehaviorTree.Proofs.Tree.Adding

/-!
# Interposing nodes

Interposing a node above a target goes through just under the conditions below,
unless the tree runs out of hashes or the host of indices, and then does just this:
the host stands in the slot of the target and lists it among its other children,
what is below the target comes along, and every other node is as before.  A host
that moves leaves its old place first.
-/

namespace BehaviorTree

theorem checkHost_eq_ok_iff {kind : NodeKind} {hash : NodeHash} {name : String}
    {children : Nat} :
    checkHost kind hash name children = .ok () ↔
      kind.arity ≠ .leaf ∧ (kind.arity = .single → children = 0) := by
  rw [checkHost]
  cases kind.arity with
  | leaf => simp
  | single =>
      by_cases occupied : children > 0
      · simp [Nat.ne_of_gt occupied, occupied]
      · simp [Nat.eq_zero_of_not_pos occupied]
  | many => simp

namespace Tree

/-- The conditions under which a node may be interposed above the target. -/
def AcceptsHost (tree : Tree) (target : NodeHash) (copying : Bool) :
    NodeOrigin → Prop
  | .detached subtree =>
    tree.Movable target ∧ subtree.Proper ∧ subtree.kind.arity ≠ .leaf ∧
      (subtree.kind.arity = .single → subtree.children = [])
  | .resident hash =>
    tree.Movable target ∧ tree.Movable hash ∧ tree.Hosts hash none ∧
      hash ≠ target ∧ (copying = false → ¬ tree.Within hash target)

/-- The host does not designate the largest index. -/
def HostHasIndices (tree : Tree) : NodeOrigin → Prop
  | .detached subtree => ¬ subtree.kind.AtLimit
  | .resident hash => tree.HasIndices hash

theorem hosts_none_iff {tree : Tree} {hash : NodeHash} {node : Node}
    (registered : tree.nodes[hash]? = some node) :
    tree.Hosts hash none ↔
      node.arity ≠ .leaf ∧ (node.arity = .single → node.children = []) := by
  simp [Hosts, registered, List.eq_nil_iff_forall_not_mem]

/-- `after` is `tree` with the subtree between the target and its parent, under
the hash that was returned; a host that was `leaving` came from elsewhere in the
tree. -/
structure Interposed (tree after : Tree) (leaving : Option NodeHash)
    (target : NodeHash) (position : Option Nat) (subtree : Subtree)
    (host : NodeHash) : Prop where
  slot : ∃ parent index, tree.parentOf target = some parent ∧
    (staying leaving (tree.childrenOf parent))[index]? = some target ∧
    after.childrenOf parent =
      (staying leaving (tree.childrenOf parent)).set index host ∧
    after.parentOf host = some parent
  above : after.parentOf target = some host
  hosting : ∃ (node : Node) (hashes : List NodeHash) (copies : List Subtree),
    after.nodes[host]? = some node ∧ node.name = subtree.name ∧
    node.weight = subtree.weight ∧
    node.kind =
      subtree.kind.withRoomAt (clampPosition position hashes.length) ∧
    node.children =
      hashes.insertIdx (clampPosition position hashes.length) target ∧
    hashes.map after.cloneSubtree = copies.map some ∧
    Subtree.unhashedEach copies = Subtree.unhashedEach subtree.children
  unchanged : (∀ top, leaving = some top → ¬ tree.Within target top) →
    after.cloneSubtree target = tree.cloneSubtree target
  stays : ∀ {other : NodeHash} {old : Node}, tree.nodes[other]? = some old →
    ¬ tree.Gone leaving other → ∃ now, after.nodes[other]? = some now ∧
      Node.Stays
        { old with parent := if other = target then some host else old.parent }
        now ∧
      (tree.parentOf target ≠ some other →
        now.children = staying leaving old.children)
  same : ∀ {other : NodeHash} {old : Node}, tree.nodes[other]? = some old →
    ¬ tree.Gone leaving other → (∀ top, leaving = some top → top ∉ old.children) →
    ∃ children, after.nodes[other]? = some
        { old with
          parent := if other = target then some host else old.parent
          children } ∧
      (tree.parentOf target ≠ some other → children = old.children)
  only : ∀ {other : NodeHash} {now : Node}, after.nodes[other]? = some now →
    (∃ old, tree.nodes[other]? = some old ∧ ¬ tree.Gone leaving other) ∨
      other = host ∨
      ∃ child ∈ after.childrenOf host, child ≠ target ∧ after.Within child other

/-- The target leaves its slot, its parent lists the host there, and that is
all. -/
theorem WellFormed.nodes_handOver {tree : Tree} (wellFormed : tree.WellFormed)
    {target : NodeHash} {slot : Slot} (found : tree.slotOf target = .ok slot)
    (host other : NodeHash) :
    (tree.handOver target slot host).nodes[other]? =
      (tree.nodes[other]?).map fun node =>
        if other = target then { node with parent := some host }
        else if other = slot.parent then node.hostChild slot.index host
        else node := by
  have notParent : target ≠ slot.parent := by
    intro same
    exact wellFormed.not_within_child (of_slotOf found).1 (same ▸ .top)
  rw [handOver, nodes_updateNode, nodes_updateNode]
  by_cases isTarget : other = target
  · subst isTarget
    simp [notParent]
  · by_cases isParent : other = slot.parent
    · subst isParent
      simp [isTarget]
    · simp [isTarget, isParent]

/-- `middle` is `tree` with a subtree whose top node has the slot of the target,
and in `after` that node lists the target. -/
structure Hosted (tree middle after : Tree) (target host : NodeHash)
    (slot : Slot) (position : Option Nat) (subtree placed : Subtree)
    (hashes : List NodeHash) : Prop where
  found : tree.slotOf target = .ok slot
  room : subtree.HasRoom position
  isTop : placed.hash = some host
  isPlaced : (tree.handOver target slot host).Placed middle slot.parent subtree
    placed hashes
  isAfter : after = middle.updateNode host fun node =>
    node.withChild (clampPosition position node.children.length) target

namespace Hosted

variable {tree middle after : Tree} {target host : NodeHash} {slot : Slot}
  {position : Option Nat} {subtree placed : Subtree} {hashes : List NodeHash}
  (hosted : tree.Hosted middle after target host slot position subtree placed
    hashes)
include hosted

theorem absent_handOver : (tree.handOver target slot host).nodes[host]? = none := by
  obtain ⟨_, free, _⟩ := hosted.isPlaced.top hosted.isTop
  exact free

theorem stays {other : NodeHash} {now : Node}
    (found : (tree.handOver target slot host).nodes[other]? = some now) :
    after.nodes[other]? = some now := by
  have notHost : other ≠ host := by
    rintro rfl
    rw [hosted.absent_handOver] at found
    cases found
  rw [hosted.isAfter, nodes_updateNode, if_neg notHost, hosted.isPlaced.kept found]

/-- The host lists what stands below it, and the target. -/
theorem nodes_host : ∃ tops : List NodeHash,
    after.nodes[host]? = some (Node.withChild
      { name := subtree.name, hash := host, parent := some slot.parent
        children := tops, weight := subtree.weight, kind := subtree.kind }
      (clampPosition position tops.length) target) ∧
    placed.children.map Subtree.hash = tops.map some ∧
    Subtree.unhashedEach placed.children =
      Subtree.unhashedEach subtree.children ∧
    ∀ child ∈ placed.children,
      (tree.handOver target slot host).Stands after host child := by
  obtain ⟨tops, _, registered, listed, same, below⟩ :=
    hosted.isPlaced.top hosted.isTop
  refine ⟨tops, ?_, listed, same, fun child member => ?_⟩
  · rw [hosted.isAfter, nodes_updateNode, if_pos rfl, registered]
    rfl
  refine (below child member).mono (fun _ absent => absent) ?_
  intro other node isHint _ found
  -- No hash is handed out twice.
  have distinct : placed.hints.Nodup := by
    rw [hosted.isPlaced.hinted]
    exact ((free_of_allot hosted.isPlaced.allotted).2.1).map
      fun _ _ => Option.some.inj
  have different : other ≠ host := by
    rintro rfl
    have isTop := hosted.isTop
    cases placed with
    | mk name hash weight kind children =>
        obtain rfl : hash = some other := isTop
        rw [Subtree.hints, Subtree.hintsEach_eq, List.nodup_cons] at distinct
        exact distinct.1 (List.mem_flatMap.mpr ⟨child, member, isHint⟩)
  rw [hosted.isAfter, nodes_updateNode, if_neg different, found]

theorem mem_of_registered {other : NodeHash} {now : Node}
    (found : after.nodes[other]? = some now) :
    other ∈ hashes ∨ ∃ old, tree.nodes[other]? = some old := by
  have isMiddle : ∃ node, middle.nodes[other]? = some node := by
    rw [hosted.isAfter, nodes_updateNode] at found
    split at found
    · obtain ⟨node, registered, _⟩ := Option.map_eq_some_iff.mp found
      exact ⟨node, registered⟩
    · exact ⟨now, found⟩
  obtain ⟨node, registered⟩ := isMiddle
  refine (hosted.isPlaced.mem_of_registered registered).imp_right fun present => ?_
  cases old : tree.nodes[other]? with
  | some node => exact ⟨node, rfl⟩
  | none =>
      rw [← absent_updateNode, ← absent_updateNode] at old
      exact absurd (present.symm.trans old) (Option.some_ne_none _)

theorem nodes_old (wellFormed : tree.WellFormed) {other : NodeHash} {old : Node}
    (registered : tree.nodes[other]? = some old) :
    after.nodes[other]? = some
      (if other = target then { old with parent := some host }
        else if other = slot.parent then old.hostChild slot.index host
        else old) := by
  apply hosted.stays
  rw [wellFormed.nodes_handOver hosted.found, registered, Option.map_some]

theorem cloneSubtree_target (wellFormed : tree.WellFormed)
    (laterWellFormed : after.WellFormed) :
    after.cloneSubtree target = tree.cloneSubtree target := by
  have above := (of_slotOf hosted.found).1
  obtain ⟨targetNode, targetRegistered, _⟩ := registered_of_parentOf above
  refine wellFormed.cloneSubtree_congr laterWellFormed targetRegistered ?_
  intro other old within registered
  refine ⟨if other = target then some host else old.parent,
    (hosted.nodes_old wellFormed registered).trans ?_⟩
  by_cases isTarget : other = target
  · rw [if_pos isTarget, if_pos isTarget]
  · have notParent : other ≠ slot.parent := by
      rintro rfl
      exact wellFormed.not_within_child above within
    rw [if_neg isTarget, if_neg notParent, if_neg isTarget]

/-- Every node stays, and all but the parent of the target keep their children. -/
theorem stays_old (wellFormed : tree.WellFormed) {other : NodeHash} {old : Node}
    (registered : tree.nodes[other]? = some old) :
    ∃ now, after.nodes[other]? = some now ∧
      Node.Stays
        { old with parent := if other = target then some host else old.parent }
        now ∧
      (tree.parentOf target ≠ some other → now.children = old.children) := by
  refine ⟨_, hosted.nodes_old wellFormed registered, ?_, ?_⟩
  · by_cases isTarget : other = target
    · rw [if_pos isTarget, if_pos isTarget]
      exact .refl _
    · rw [if_neg isTarget, if_neg isTarget]
      split
      · exact .hostChild _ _ _
      · exact .refl _
  · intro notAbove
    have notParent : other ≠ slot.parent := by
      rintro rfl
      exact notAbove (of_slotOf hosted.found).1
    rw [if_neg notParent]
    split <;> rfl

/-- Every node is as before, but for the parent of the target and the children of
that parent. -/
theorem same_old (wellFormed : tree.WellFormed) {other : NodeHash} {old : Node}
    (registered : tree.nodes[other]? = some old) :
    ∃ children, after.nodes[other]? = some
        { old with
          parent := if other = target then some host else old.parent
          children } ∧
      (tree.parentOf target ≠ some other → children = old.children) := by
  rw [hosted.nodes_old wellFormed registered]
  by_cases isTarget : other = target
  · exact ⟨old.children, by rw [if_pos isTarget, if_pos isTarget], fun _ => rfl⟩
  by_cases isParent : other = slot.parent
  · refine ⟨old.children.set slot.index host, ?_, fun notAbove => ?_⟩
    · rw [if_neg isTarget, if_neg isTarget, if_pos isParent, Node.hostChild]
    · exact (notAbove (isParent ▸ (of_slotOf hosted.found).1)).elim
  · exact ⟨old.children, by rw [if_neg isTarget, if_neg isTarget, if_neg isParent],
      fun _ => rfl⟩

end Hosted

theorem spliceAbove_hosts {tree : Tree} {target : NodeHash} {slot : Slot}
    (found : tree.slotOf target = .ok slot) (subtree : Subtree)
    (position : Option Nat) :
    Edit.Delivers (tree.Affords subtree.hints) (subtree.HasRoom position)
      (fun host after => ∃ middle placed hashes,
        tree.Hosted middle after target host slot position subtree placed hashes)
      (spliceAbove subtree target position tree) := by
  refine (spliceAbove_placed found subtree position).weaken ?_
  rintro host after ⟨room, middle, placed, hashes, isTop, isPlaced, isAfter⟩
  exact ⟨middle, placed, hashes, found, room, isTop, isPlaced, isAfter⟩

namespace WellFormed

variable {tree : Tree} (wellFormed : tree.WellFormed)
include wellFormed

theorem spliceAbove_hosted {subtree : Subtree} (proper : subtree.Proper)
    {target : NodeHash} {slot : Slot} (found : tree.slotOf target = .ok slot)
    (fits : subtree.kind.arity.allows (subtree.children.length + 1) = true)
    (position : Option Nat) :
    Edit.Delivers (tree.Affords subtree.hints) (subtree.HasRoom position)
      (fun host after => after.WellFormed ∧ ∃ middle placed hashes,
        tree.Hosted middle after target host slot position subtree placed hashes)
      (spliceAbove subtree target position tree) := by
  refine ((spliceAbove_hosts found subtree position).and_completes
    (wellFormed.spliceAbove_spec proper found fits position)).weaken ?_
  rintro host after ⟨hosts, isWell⟩
  exact ⟨isWell, hosts⟩

end WellFormed

/-- The nodes that were handed out lie at the host or below one of its new
children. -/
theorem Hosted.eq_or_within {tree middle after : Tree} {target host : NodeHash}
    {slot : Slot} {position : Option Nat} {subtree placed : Subtree}
    {hashes tops : List NodeHash}
    (hosted : tree.Hosted middle after target host slot position subtree placed
      hashes)
    (listed : placed.children.map Subtree.hash = tops.map some)
    (below : ∀ child ∈ placed.children,
      (tree.handOver target slot host).Stands after host child)
    {other : NodeHash} (member : other ∈ hashes) :
    other = host ∨ ∃ child ∈ tops,
      (tree.handOver target slot host).nodes[child]? = none ∧
      after.Within child other := by
  have isHint : some other ∈ placed.hints := by
    rw [hosted.isPlaced.hinted]
    exact List.mem_map_of_mem member
  have isTop := hosted.isTop
  cases placed with
  | mk name hash weight kind children =>
      obtain rfl : hash = some host := isTop
      rcases List.mem_cons.mp isHint with isHost | isBelow
      · exact .inl (Option.some.inj isHost)
      rw [Subtree.hintsEach_eq] at isBelow
      obtain ⟨child, childMember, isHint⟩ := List.mem_flatMap.mp isBelow
      have stands := below child childMember
      have within : ∀ {top : NodeHash}, child.hash = some top →
          after.Within top other := fun isTop => stands.within isTop isHint
      have isListed : child.hash ∈ tops.map some := by
        rw [← listed]
        exact List.mem_map_of_mem childMember
      obtain ⟨top, topMember, isTop⟩ := List.mem_map.mp isListed
      refine .inr ⟨top, topMember, ?_, within isTop.symm⟩
      cases stands with
      | mk free _ _ _ =>
          obtain rfl := Option.some.inj isTop
          exact free

/-- A host that was spliced in is interposed. -/
theorem Hosted.interposed {tree middle after : Tree} {target host : NodeHash}
    {slot : Slot} {position : Option Nat} {subtree placed : Subtree}
    {hashes : List NodeHash}
    (hosted : tree.Hosted middle after target host slot position subtree placed
      hashes)
    (wellFormed : tree.WellFormed) (laterWellFormed : after.WellFormed) :
    tree.Interposed after none target position subtree host := by
  obtain ⟨above, parentNode, parentRegistered, listed⟩ := of_slotOf hosted.found
  obtain ⟨targetNode, targetRegistered, _⟩ := registered_of_parentOf above
  obtain ⟨tops, hostNow, topsListed, same, below⟩ := hosted.nodes_host
  have notParent : slot.parent ≠ target := by
    intro same
    exact wellFormed.not_within_child above (same ▸ .top)
  have targetNow := hosted.nodes_old wellFormed targetRegistered
  have parentNow := hosted.nodes_old wellFormed parentRegistered
  rw [if_pos rfl] at targetNow
  rw [if_neg notParent, if_pos rfl] at parentNow
  have cloned : tops.map after.cloneSubtree = placed.children.map some :=
    map_of_listed topsListed fun child member _ isTop =>
      (below child member).cloneSubtree_eq laterWellFormed isTop
  refine
    { slot := ⟨slot.parent, slot.index, above, ?_, ?_, ?_⟩
      above := by rw [parentOf_eq targetNow]
      hosting := ⟨_, tops, placed.children, hostNow, rfl, rfl, rfl, rfl, cloned,
        same⟩
      unchanged := ?_, stays := ?_, same := ?_, only := ?_ }
  · rw [childrenOf_eq parentRegistered]
    exact listed
  · rw [childrenOf_eq parentNow, childrenOf_eq parentRegistered]
    rfl
  · rw [parentOf_eq hostNow]
    rfl
  · exact fun _ => hosted.cloneSubtree_target wellFormed laterWellFormed
  · exact fun registered _ => hosted.stays_old wellFormed registered
  · exact fun registered _ _ => hosted.same_old wellFormed registered
  · intro other now found
    rcases hosted.mem_of_registered found with member | ⟨old, registered⟩
    · refine .inr ((hosted.eq_or_within topsListed below member).imp_right ?_)
      rintro ⟨child, childMember, free, within⟩
      refine ⟨child, ?_, ?_, within⟩
      · rw [childrenOf_eq hostNow]
        exact (List.mem_insertIdx (clampPosition_le _ _)).mpr (.inr childMember)
      · rintro rfl
        rw [handOver, absent_updateNode, absent_updateNode,
          targetRegistered] at free
        cases free
    · exact .inl ⟨old, registered, tree.not_gone_none _⟩

/-- A node that leaves does not change the clones apart from it. -/
theorem WellFormed.cloneSubtree_pruned {tree after : Tree}
    (wellFormed : tree.WellFormed) {hash : NodeHash} {slot : Slot}
    {parentNode : Node} (pruned : tree.Pruned after hash slot parentNode)
    {top : NodeHash} {node : Node} (registered : tree.nodes[top]? = some node)
    (notAbove : ¬ tree.Within hash top) (notBelow : ¬ tree.Within top hash) :
    after.cloneSubtree top = tree.cloneSubtree top := by
  refine wellFormed.cloneSubtree_congr (pruned.wellFormed_after wellFormed)
    registered ?_
  intro other old within oldRegistered
  have outside : ¬ tree.Within hash other := by
    intro withinHash
    exact (within.comparable withinHash).elim notBelow notAbove
  have notParent : other ≠ slot.parent := by
    rintro rfl
    exact notBelow (within.trans (.child pruned.above rfl))
  refine ⟨old.parent, ?_⟩
  rw [pruned.kept outside, if_neg notParent, oldRegistered]

/-- A node that left and was spliced in moved. -/
theorem Departed.interposed {tree middle after : Tree}
    {hash target host : NodeHash} {position : Option Nat} {subtree : Subtree}
    (departed : tree.Departed middle hash)
    (outside : ¬ tree.Within hash target) {targetNode : Node}
    (registered : tree.nodes[target]? = some targetNode)
    (unchanged : ¬ tree.Within target hash →
      middle.cloneSubtree target = tree.cloneSubtree target)
    (interposed : middle.Interposed after none target position subtree host) :
    tree.Interposed after (some hash) target position subtree host := by
  obtain ⟨targetMiddle, targetFound, targetStays, _⟩ :=
    departed.stays registered outside
  have sameParent : middle.parentOf target = tree.parentOf target := by
    rw [parentOf_eq targetFound, parentOf_eq registered, targetStays.parent]
  refine { interposed with
    slot := ?_, unchanged := ?_, stays := ?_, same := ?_, only := ?_ }
  · obtain ⟨parent, index, above, listed, placed, hostAbove⟩ := interposed.slot
    rw [sameParent] at above
    obtain ⟨node, parentRegistered⟩ : ∃ node, tree.nodes[parent]? = some node := by
      cases found : tree.nodes[parent]? with
      | some node => exact ⟨node, rfl⟩
      | none =>
          have gone := departed.free (.inl found)
          simp [staying, childrenOf, gone] at listed
    have parentOutside : ¬ tree.Within hash parent :=
      fun within => outside (within.trans (.child above rfl))
    obtain ⟨now, parentFound, _, children⟩ :=
      departed.stays parentRegistered parentOutside
    have same : staying none (middle.childrenOf parent) =
        staying (some hash) (tree.childrenOf parent) := by
      rw [childrenOf_eq parentFound, childrenOf_eq parentRegistered]
      exact children
    rw [same] at listed placed
    exact ⟨parent, index, above, listed, placed, hostAbove⟩
  · intro apart
    have stillSame : after.cloneSubtree target = middle.cloneSubtree target := by
      apply interposed.unchanged
      intro top impossible
      cases impossible
    rw [stillSame, unchanged (apart hash rfl)]
  · intro other old oldRegistered notGone
    rw [gone_some_iff] at notGone
    obtain ⟨between, found, first, children⟩ :=
      departed.stays oldRegistered notGone
    obtain ⟨now, nowFound, second, others⟩ := interposed.stays found (middle.not_gone_none _)
    refine ⟨now, nowFound, ?_, fun notAbove => ?_⟩
    · rw [first.parent] at second
      exact ⟨second.hash.trans first.hash, second.name.trans first.name,
        second.weight.trans first.weight, second.parent,
        second.kind.trans first.kind⟩
    · rw [others (by rwa [sameParent])]
      exact children
  · intro other old oldRegistered notGone unlisted
    rw [gone_some_iff] at notGone
    rw [← sameParent]
    refine interposed.same (departed.same oldRegistered notGone (unlisted hash rfl))
      (middle.not_gone_none _) ?_
    intro top impossible
    cases impossible
  · intro other now nowRegistered
    refine (interposed.only nowRegistered).imp_left ?_
    rintro ⟨between, found, _⟩
    obtain ⟨old, oldRegistered⟩ := departed.only found
    refine ⟨old, oldRegistered, ?_⟩
    rw [gone_some_iff]
    intro within
    simp [departed.gone within] at found

namespace WellFormed

variable {tree : Tree} (wellFormed : tree.WellFormed)
include wellFormed

theorem fits_of_hosts {hash : NodeHash} {subtree : Subtree}
    (movable : tree.Movable hash) (hosts : tree.Hosts hash none)
    (cloned : tree.cloneSubtree hash = some subtree) :
    subtree.kind.arity.allows (subtree.children.length + 1) = true := by
  obtain ⟨⟨node, registered⟩, notRoot⟩ := movable
  obtain ⟨found, foundCloned, _, kind, length⟩ :=
    wellFormed.cloneSubtree_spec registered notRoot
  rw [cloned, Option.some.injEq] at foundCloned
  subst foundCloned
  rw [kind, length]
  exact hosts.fits registered (wellFormed.children_nodup registered)

theorem hasRoom_of_hasIndices {hash : NodeHash} {subtree : Subtree}
    (movable : tree.Movable hash) (spare : tree.HasIndices hash)
    (cloned : tree.cloneSubtree hash = some subtree) (position : Option Nat) :
    subtree.HasRoom position := by
  obtain ⟨⟨node, registered⟩, notRoot⟩ := movable
  obtain ⟨found, foundCloned, _, kind, _⟩ :=
    wellFormed.cloneSubtree_spec registered notRoot
  rw [cloned, Option.some.injEq] at foundCloned
  subst foundCloned
  refine NodeKind.overflowsAt_eq_false ?_ _
  rw [kind]
  exact spare node registered

theorem spliceAbove_interposed {subtree : Subtree} (proper : subtree.Proper)
    (fits : subtree.kind.arity.allows (subtree.children.length + 1) = true)
    {target : NodeHash} (movable : tree.Movable target)
    (position : Option Nat) :
    Edit.Delivers (tree.Affords subtree.hints) (subtree.HasRoom position)
      (fun host after => tree.Interposed after none target position subtree host)
      (spliceAbove subtree target position tree) := by
  obtain ⟨slot, found⟩ := wellFormed.exists_slotOf_of_movable movable
  refine (wellFormed.spliceAbove_hosted proper found fits position).weaken ?_
  rintro host after ⟨laterWellFormed, middle, placed, hashes, hosted⟩
  exact hosted.interposed wellFormed laterWellFormed

variable (target : NodeHash) (position : Option Nat)

theorem interpose_detached_exact (subtree : Subtree) (copying : Bool) :
    Edit.Exact (tree.AcceptsHost target copying (.detached subtree))
      (tree.KeepsHashes copying (.detached subtree))
      (tree.HostHasIndices (.detached subtree))
      (fun host after =>
        tree.Interposed after none target position subtree host) tree
      (interpose (.detached subtree) target position copying tree) := by
  unfold interpose
  refine .after_get (.after_require ?_ fun slot found => ?_)
  · exact fun cause refused accepts =>
      wellFormed.not_movable_of_slotOf refused accepts.1
  refine .after_require ?_ fun _ checked => .after_require ?_ fun _ passed => ?_
  · intro cause refused accepts
    rw [Subtree.check_eq_ok_iff.mpr accepts.2.1] at refused
    cases refused
  · rintro cause refused ⟨_, _, notLeaf, childless⟩
    rw [checkHost_eq_ok_iff.mpr ⟨notLeaf, fun single => by
      rw [childless single, List.length_nil]⟩] at refused
    cases refused
  have movable := Movable.of_slotOf wellFormed found
  have proper := Subtree.check_eq_ok_iff.mp checked
  obtain ⟨notLeaf, childless⟩ := checkHost_eq_ok_iff.mp passed
  refine .of_delivers
    ⟨movable, proper, notLeaf, fun single => List.length_eq_zero_iff.mp (childless single)⟩
    (wellFormed.spliceAbove_interposed proper (fits_of_checkHost passed) movable
      position) (fun keeps => (keeps.suits rfl rfl ?_).affords)
    fun spare => NodeKind.overflowsAt_eq_false spare _
  rintro hash (absent | ⟨_, impossible, _⟩)
  · exact absent
  · cases impossible

omit wellFormed in
theorem not_hosts_of_checkHost {hash : NodeHash} {node : Node}
    {cause : TopologyError} (registered : tree.nodes[hash]? = some node)
    (refused : checkHost node.kind node.hash node.name node.children.length =
      .error cause) : ¬ tree.Hosts hash none := by
  intro hosts
  obtain ⟨notLeaf, childless⟩ := (hosts_none_iff registered).mp hosts
  rw [checkHost_eq_ok_iff.mpr ⟨notLeaf, fun single => by
    rw [childless single, List.length_nil]⟩] at refused
  cases refused

omit wellFormed in
theorem hosts_of_checkHost {hash : NodeHash} {node : Node}
    (registered : tree.nodes[hash]? = some node)
    (passed : checkHost node.kind node.hash node.name node.children.length =
      .ok ()) : tree.Hosts hash none := by
  obtain ⟨notLeaf, childless⟩ := checkHost_eq_ok_iff.mp passed
  exact (hosts_none_iff registered).mpr
    ⟨notLeaf, fun single => List.length_eq_zero_iff.mp (childless single)⟩

theorem host_copy_exact {hash : NodeHash}
    (holds : tree.AcceptsHost target true (.resident hash)) :
    Edit.Exact (tree.AcceptsHost target true (.resident hash))
      (tree.KeepsHashes true (.resident hash)) (tree.HostHasIndices (.resident hash))
      (fun host after => ∃ subtree, tree.cloneSubtree hash = some subtree ∧
        tree.Interposed after none target position subtree host) tree
      ((copyNode hash >>= fun subtree => spliceAbove subtree target position)
        tree) := by
  have accepts := holds
  obtain ⟨targetMovable, movable, hosts, _⟩ := accepts
  obtain ⟨⟨node, registered⟩, notRoot⟩ := movable
  obtain ⟨subtree, cloned, proper, _⟩ :=
    wellFormed.cloneSubtree_spec registered notRoot
  have fits := wellFormed.fits_of_hosts ⟨⟨node, registered⟩, notRoot⟩ hosts cloned
  rw [Edit.bind_apply, copyNode_eq_ok cloned]
  refine .of_delivers holds
    ((wellFormed.spliceAbove_interposed proper fits targetMovable position).weaken
      fun host after interposed => ⟨subtree, cloned, interposed⟩)
    (fun keeps => (keeps.suits cloned rfl ?_).affords)
    fun spare => wellFormed.hasRoom_of_hasIndices ⟨⟨node, registered⟩, notRoot⟩ spare
      cloned position
  rintro other (absent | ⟨_, impossible, _⟩)
  · exact absent
  · cases impossible

theorem host_move_exact {hash : NodeHash}
    (holds : tree.AcceptsHost target false (.resident hash)) :
    Edit.Exact (tree.AcceptsHost target false (.resident hash))
      (tree.KeepsHashes false (.resident hash)) (tree.HostHasIndices (.resident hash))
      (fun host after => ∃ subtree, tree.cloneSubtree hash = some subtree ∧
        tree.Interposed after (some hash) target position subtree host) tree
      ((detach hash >>= fun subtree => spliceAbove subtree target position)
        tree) := by
  have accepts := holds
  obtain ⟨⟨⟨targetNode, registered⟩, targetNotRoot⟩, movable, hosts, _, apart⟩ :=
    accepts
  have outside := apart rfl
  obtain ⟨slot, parentNode, subtree, middle, detached, cloned, proper,
    middleWellFormed, same, pruned⟩ := wellFormed.detach_pruned movable
  have departed := wellFormed.departed_of_pruned pruned
  have fits := wellFormed.fits_of_hosts movable hosts cloned
  obtain ⟨targetNow, targetFound, _⟩ := departed.stays registered outside
  have stillMovable : middle.Movable target := by
    refine ⟨⟨targetNow, targetFound⟩, ?_⟩
    rw [pruned.sameRoot]
    exact targetNotRoot
  rw [Edit.bind_apply, detached]
  refine .of_delivers holds
    ((middleWellFormed.spliceAbove_interposed proper fits stillMovable
      position).weaken
      fun host after interposed =>
        ⟨subtree, cloned, departed.interposed outside registered
          (wellFormed.cloneSubtree_pruned pruned registered outside) interposed⟩)
    (fun keeps => (keeps.suits cloned (by rw [same]) departed.free).affords)
    fun spare => wellFormed.hasRoom_of_hasIndices movable spare cloned position

theorem interpose_resident_exact (hash : NodeHash) (copying : Bool) :
    Edit.Exact (tree.AcceptsHost target copying (.resident hash))
      (tree.KeepsHashes copying (.resident hash)) (tree.HostHasIndices (.resident hash))
      (fun host after => ∃ subtree, tree.cloneSubtree hash = some subtree ∧
        tree.Interposed after (leaving copying (.resident hash)) target position
          subtree host) tree
      (interpose (.resident hash) target position copying tree) := by
  unfold interpose
  refine .after_get (.after_require ?_ fun slot found => ?_)
  · exact fun cause refused accepts =>
      wellFormed.not_movable_of_slotOf refused accepts.1
  refine .after_guard ?_ fun different => ?_
  · exact fun same accepts => accepts.2.2.2.1 same
  refine .after_get (.after_require ?_ fun node nodeFound => ?_)
  · exact fun cause refused accepts =>
      wellFormed.not_movable_of_findMovable refused accepts.2.1
  obtain ⟨registered, notRoot⟩ := of_findMovable nodeFound
  refine .after_require ?_ fun _ passed => ?_
  · exact fun cause refused accepts =>
      not_hosts_of_checkHost registered refused accepts.2.2.1
  have targetMovable := Movable.of_slotOf wellFormed found
  have movable := wellFormed.movable_iff.mpr ⟨node, registered, notRoot⟩
  have hosts := hosts_of_checkHost registered passed
  cases copying with
  | true =>
      exact wellFormed.host_copy_exact target position
        ⟨targetMovable, movable, hosts, different, nofun⟩
  | false =>
      obtain ⟨targetNode, targetRegistered⟩ := targetMovable.1
      refine .after_get (.after_guard ?_ fun notAbove => ?_)
      · intro isAncestor accepts
        exact accepts.2.2.2.2 rfl
          ((wellFormed.isAncestor_iff targetRegistered).mp isAncestor).1
      · refine wellFormed.host_move_exact target position
          ⟨targetMovable, movable, hosts, different, fun _ within => ?_⟩
        exact notAbove ((wellFormed.isAncestor_iff targetRegistered).mpr
          ⟨within, different⟩)

end WellFormed

end Tree

namespace TreePair

open BehaviorTree.Tree

/-- The conditions under which a node of the source tree may be interposed. -/
def AcceptsHost (pair : TreePair) (hash target : NodeHash) : Prop :=
  pair.dest.Movable target ∧ pair.source.Movable hash ∧
    pair.source.Hosts hash none

end TreePair

namespace Tree

/-- One lamp, whose hash has the scope of the outpost. -/
def lamp : Subtree :=
  { name := "lamp", hash := some ⟨"lamp-2"⟩, kind := .command "mark_b" }

def keptChore : Subtree := { chore with hash := some ⟨"chore-1"⟩ }

def inversion : Subtree := { name := "inversion", kind := .inverter }

end Tree

end BehaviorTree
