import BehaviorTree.Proofs.Tree.Admitting
import BehaviorTree.Proofs.Tree.Designating

/-!
# Designations under the edits

No edit makes a Parallel designate another child.  If the child stays, the index
is where it is listed now; if a host was interposed above it, the index is that of
the host; if the child left, even to come back at once, the designation is
cleared.  This goes for every Parallel that does not leave the tree, be it one
that moves within the tree itself.
-/

namespace BehaviorTree

namespace Tree

/-- No hash changes. -/
def unchanged (hash : NodeHash) : NodeHash := hash

/-- What becomes of a child: it is gone if it is the node that was leaving its
place, and may have another hash otherwise. -/
def heirOf (leaving : Option NodeHash) (rename : NodeHash → NodeHash)
    (child : NodeHash) : Option NodeHash :=
  if leaving = some child then none else some (rename child)

/-- What becomes of a child when a host takes the slot of the target. -/
def hostedHeir (leaving : Option NodeHash) (rename : NodeHash → NodeHash)
    (target host child : NodeHash) : Option NodeHash :=
  if leaving = some child then none
  else if target = child then some host
  else some (rename child)

/-- What becomes of a child when others come in its place: it is gone if it has
another parent. -/
def stayedHeir (tree after : Tree) (child : NodeHash) : Option NodeHash :=
  if after.parentOf child = tree.parentOf child then some child else none

/-- Every node of the tree that is not gone is in `after`, and its designation
went to the heir of the child. -/
def Followed (tree after : Tree) (gone : Option NodeHash)
    (rename : NodeHash → NodeHash) (heir : NodeHash → Option NodeHash) : Prop :=
  ∀ (other : NodeHash) (old : Node), tree.nodes[other]? = some old →
    ¬ tree.Gone gone other →
    ∃ now, after.nodes[rename other]? = some now ∧ old.Follows now heir

/-- What was below a node that moved stands below it as before, under the hashes
that `rename` gives; no other node got another hash, and none at all did in a tree
whose hashes have its scope. -/
structure Renames (tree after : Tree) (leaving : Option NodeHash)
    (top : NodeHash) (rename : NodeHash → NodeHash) : Prop where
  elsewhere : ∀ {other : NodeHash}, ¬ tree.Gone leaving other →
    rename other = other
  top : ∀ {hash : NodeHash}, leaving = some hash → rename hash = top
  below : ∀ {hash other : NodeHash} {old : Node}, leaving = some hash →
    tree.Within hash other → other ≠ hash → tree.nodes[other]? = some old →
    after.nodes[rename other]? =
      some (old.relabel rename (old.parent.map rename))
  kept : ∀ {id : TreeId}, tree.ScopedTo id → ∀ other, rename other = other

theorem Renames.of_none (tree after : Tree) (top : NodeHash) :
    tree.Renames after none top unchanged where
  elsewhere _ := rfl
  top := nofun
  below := nofun
  kept _ _ := rfl

theorem Carried.renames {tree base middle after : Tree}
    {hash parent top : NodeHash} {rename : NodeHash → NodeHash}
    (carried : tree.Carried base middle hash parent top rename)
    (below : ∀ {other : NodeHash} {old : Node}, tree.Within hash other →
      other ≠ hash → tree.nodes[other]? = some old →
      after.nodes[rename other]? =
        some (old.relabel rename (old.parent.map rename))) :
    tree.Renames after (some hash) top rename where
  elsewhere notGone := carried.elsewhere (gone_some_iff.not.mp notGone)
  top := by
    rintro _ ⟨⟩
    exact carried.top
  below := by
    rintro _ other old ⟨⟩
    exact below
  kept scopedTo := (carried.kept scopedTo).1

theorem heirOf_unchanged (hash : NodeHash) : heirOf (some hash) unchanged =
    fun child => if hash = child then none else some child := by
  funext child
  simp only [heirOf, Option.some.injEq, unchanged]

theorem WellFormed.tracks_elsewhere {tree : Tree} (wellFormed : tree.WellFormed)
    {hash parent other : NodeHash} {old : Node}
    (above : tree.parentOf hash = some parent)
    (registered : tree.nodes[other]? = some old) (notParent : other ≠ parent) :
    old.Tracks old (heirOf (some hash) unchanged) := by
  rw [heirOf_unchanged]
  refine (Node.Tracks.refl old).congr fun child member => ?_
  have notLeaving : hash ≠ child := by
    rintro rfl
    exact wellFormed.not_listed_elsewhere above registered notParent member
  rw [if_neg notLeaving]

section Leaving

variable {tree middle : Tree} (wellFormed : tree.WellFormed) {hash : NodeHash}
  {slot : Slot} {parentNode : Node}
  (pruned : tree.Pruned middle hash slot parentNode)
include wellFormed pruned

theorem Pruned.tracks {other : NodeHash} {old : Node}
    (registered : tree.nodes[other]? = some old)
    (outside : ¬ tree.Within hash other) :
    ∃ now, middle.nodes[other]? = some now ∧
      old.Tracks now (heirOf (some hash) unchanged) := by
  have now := pruned.kept outside
  by_cases atParent : other = slot.parent
  · subst atParent
    rw [pruned.parentRegistered, Option.some.injEq] at registered
    subst registered
    rw [if_pos rfl] at now
    rw [heirOf_unchanged]
    exact ⟨_, now, .removeChild (wellFormed.children_nodup pruned.parentRegistered)
      pruned.listed⟩
  · rw [if_neg atParent, registered] at now
    exact ⟨old, now, wellFormed.tracks_elsewhere pruned.above registered atParent⟩

theorem Pruned.followed : tree.Followed middle (some hash) unchanged
    (heirOf (some hash) unchanged) := by
  intro other old registered notGone
  obtain ⟨now, found, tracks⟩ :=
    pruned.tracks wellFormed registered (gone_some_iff.not.mp notGone)
  exact ⟨now, found, .of_tracks tracks⟩

omit pruned in
theorem Vacates.followed {leaving : Option NodeHash}
    (vacates : tree.Vacates leaving middle) :
    tree.Followed middle leaving unchanged (heirOf leaving unchanged) := by
  cases vacates with
  | unmoved =>
      intro other old registered _
      exact ⟨old, registered, .of_tracks (.refl old)⟩
  | moved pruned => exact pruned.followed wellFormed

omit pruned in
theorem Carried.child_outside {base after : Tree} {parent top : NodeHash}
    {rename : NodeHash → NodeHash}
    (carried : tree.Carried base after hash parent top rename)
    {other : NodeHash} {old : Node} (registered : tree.nodes[other]? = some old)
    (outside : ¬ tree.Within hash other) {child : NodeHash}
    (member : child ∈ old.children) (different : child ≠ hash) :
    rename child = child :=
  carried.elsewhere (not_within_of_parentOf
    ((wellFormed.mem_children_iff registered).mp member) outside different)

omit pruned in
theorem WellFormed.child_within {other : NodeHash} {old : Node}
    (registered : tree.nodes[other]? = some old)
    (within : tree.Within hash other) : ∀ child ∈ old.children, hash ≠ child := by
  rintro child member rfl
  exact wellFormed.not_within_child
    ((wellFormed.mem_children_iff registered).mp member) within

end Leaving

theorem Admitted.followed {tree after : Tree} {target top : NodeHash}
    {position : Option Nat} {subtree placed : Subtree} {hashes : List NodeHash}
    (admitted : tree.Admitted after target position subtree placed hashes top) :
    tree.Followed after none unchanged (heirOf none unchanged) := by
  intro other old registered _
  refine ⟨_, admitted.isPlaced.kept (registered_updateNode registered target _), ?_⟩
  split
  · exact .withChild (.refl old) _ top
  · exact .of_tracks (.refl old)

section Moving

variable {tree middle : Tree} (wellFormed : tree.WellFormed) {hash : NodeHash}
  {slot : Slot} {parentNode : Node}
  (pruned : tree.Pruned middle hash slot parentNode)
include wellFormed pruned

theorem Carried.added_follows {target top : NodeHash} {position : Option Nat}
    {after : Tree} {rename : NodeHash → NodeHash}
    (carried : tree.Carried
      (middle.updateNode target fun node =>
        node.withChild (clampPosition position node.children.length) top)
      after hash target top rename) :
    tree.Renames after (some hash) top rename ∧
      tree.Followed after none rename (heirOf (some hash) rename) := by
  refine ⟨carried.renames fun within different registered => ?_, ?_⟩
  · rw [carried.nodes within registered, if_neg different]
  · intro other old registered _
    -- What moved keeps its children, under other hashes perhaps; elsewhere the
    -- child leaves before the top node is listed.
    by_cases within : tree.Within hash other
    · refine ⟨_, carried.nodes within registered,
        .of_tracks ((Node.Tracks.relabel old rename _).congr fun child member => ?_)⟩
      have notLeaving := wellFormed.child_within registered within child member
      rw [heirOf, if_neg (mt Option.some.inj notLeaving)]
    · obtain ⟨between, found, tracks⟩ := pruned.tracks wellFormed registered within
      have toHeir : old.Tracks between (heirOf (some hash) rename) := by
        refine tracks.congr fun child member => ?_
        by_cases isLeaving : some hash = some child
        · rw [heirOf, heirOf, if_pos isLeaving, if_pos isLeaving]
        · rw [heirOf, heirOf, if_neg isLeaving, if_neg isLeaving, unchanged,
            carried.child_outside wellFormed registered within member
              fun same => isLeaving (congrArg some same.symm)]
      rw [carried.elsewhere within]
      refine ⟨_, carried.stays (registered_updateNode found target _), ?_⟩
      split
      · exact .withChild toHeir _ top
      · exact .of_tracks toHeir

end Moving

theorem Admitted.follows {tree base after : Tree} (wellFormed : tree.WellFormed)
    {leaving : Option NodeHash} (vacates : tree.Vacates leaving base)
    {target top : NodeHash} {position : Option Nat} {subtree placed : Subtree}
    {hashes : List NodeHash}
    (cloned : ∀ hash, leaving = some hash → tree.cloneSubtree hash = some subtree)
    (admitted : base.Admitted after target position subtree placed hashes top) :
    ∃ rename, tree.Renames after leaving top rename ∧
      tree.Followed after none rename (heirOf leaving rename) := by
  cases vacates with
  | unmoved => exact ⟨unchanged, .of_none tree after top, admitted.followed⟩
  | @moved hash slot parentNode base pruned same =>
      obtain ⟨node, registered, _⟩ := registered_of_parentOf pruned.above
      obtain ⟨rename, carried⟩ := wellFormed.carried registered (cloned hash rfl)
        (by rw [updateNode, same])
        (fun within => absent_updateNode.mpr (pruned.cleared.gone_single within))
        admitted.isPlaced admitted.isTop
      exact ⟨rename, carried.added_follows wellFormed pruned⟩

theorem WellFormed.add_follows {tree : Tree} (wellFormed : tree.WellFormed)
    (origin : NodeOrigin) (target : NodeHash) (position : Option Nat)
    (copying : Bool) :
    Edit.Upholds tree
      (fun top after => ∃ rename,
        tree.Renames after (leaving copying origin) top rename ∧
        tree.Followed after none rename (heirOf (leaving copying origin) rename))
      (add origin target position copying tree) := by
  refine (wellFormed.add_admits origin target position copying).mono ?_
  rintro top after ⟨base, subtree, placed, hashes, vacates, comes, admitted⟩
  exact admitted.follows wellFormed vacates fun hash moves =>
    (incoming_of_leaving moves).symm.trans comes

/-- A designation goes on to the host that takes the slot of the target. -/
theorem WellFormed.handOver_tracks {tree : Tree} (wellFormed : tree.WellFormed)
    {target : NodeHash} {slot : Slot} (found : tree.slotOf target = .ok slot)
    (host : NodeHash) {other : NodeHash} {old : Node}
    (registered : tree.nodes[other]? = some old) :
    ∃ now, (tree.handOver target slot host).nodes[other]? = some now ∧
      old.Tracks now (hostedHeir none unchanged target host) := by
  obtain ⟨above, parentNode, parentRegistered, listed⟩ := of_slotOf found
  rw [wellFormed.nodes_handOver found, registered, Option.map_some]
  refine ⟨_, rfl, ?_⟩
  by_cases atParent : other = slot.parent
  · subst atParent
    rw [registered, Option.some.injEq] at parentRegistered
    subst parentRegistered
    have notTarget : slot.parent ≠ target := by
      intro same
      exact wellFormed.not_within_child above (same ▸ .top)
    rw [if_neg notTarget, if_pos rfl]
    refine (Node.Tracks.hostChild (wellFormed.children_nodup registered) listed
      host).congr fun child _ => ?_
    simp [hostedHeir, unchanged]
  · have same : ∀ child ∈ old.children,
        some child = hostedHeir none unchanged target host child := by
      intro child member
      have notTarget : target ≠ child := by
        rintro rfl
        exact wellFormed.not_listed_elsewhere above registered atParent member
      simp [hostedHeir, unchanged, notTarget]
    rw [if_neg atParent]
    split
    · exact ((Node.Tracks.refl old).congr same).reparent _
    · exact (Node.Tracks.refl old).congr same

theorem Hosted.followed {tree middle after : Tree} (wellFormed : tree.WellFormed)
    {target host : NodeHash} {slot : Slot} {position : Option Nat}
    {subtree placed : Subtree} {hashes : List NodeHash}
    (hosted : tree.Hosted middle after target host slot position subtree placed
      hashes) :
    tree.Followed after none unchanged (hostedHeir none unchanged target host) := by
  intro other old registered _
  obtain ⟨now, atHandOver, tracks⟩ :=
    wellFormed.handOver_tracks hosted.found host registered
  exact ⟨now, hosted.stays atHandOver, .of_tracks tracks⟩

section MovingHosts

variable {tree middle between : Tree} (wellFormed : tree.WellFormed)
  {hash target host : NodeHash} {slot targetSlot : Slot} {parentNode : Node}
  {rename : NodeHash → NodeHash}
  (pruned : tree.Pruned middle hash slot parentNode)
  (found : middle.slotOf target = .ok targetSlot)
  (carried : tree.Carried (middle.handOver target targetSlot host) between hash
    targetSlot.parent host rename)
include pruned found carried

/-- No node below the one that moves gets the hash of the host: its parent would
have to get that of a node outside. -/
theorem Carried.ne_host {other : NodeHash} {old : Node}
    (registered : tree.nodes[other]? = some old)
    (within : tree.Within hash other) (different : other ≠ hash) :
    rename other ≠ host := by
  intro same
  obtain ⟨node, hashRegistered, _⟩ := registered_of_parentOf pruned.above
  have hostNow := carried.nodes .top hashRegistered
  have otherNow := carried.nodes within registered
  rw [if_pos rfl, carried.top] at hostNow
  rw [if_neg different, same, hostNow, Option.some.injEq] at otherNow
  have sameParent : some targetSlot.parent = old.parent.map rename :=
    congrArg Node.parent otherNow
  cases within with
  | top => exact different rfl
  | @step _ parent above withinParent =>
      obtain ⟨parentOld, parentRegistered⟩ := withinParent.registered hashRegistered
      have free := carried.fresh withinParent parentRegistered
      rw [← parentOf_eq registered, above, Option.map_some,
        Option.some.injEq] at sameParent
      obtain ⟨_, _, present, _⟩ := of_slotOf found
      rw [← sameParent, handOver, absent_updateNode, absent_updateNode,
        present] at free
      cases free

variable (wellFormed : tree.WellFormed)
include wellFormed

theorem Carried.hosted_tracks {other : NodeHash} {old : Node}
    (registered : tree.nodes[other]? = some old)
    (outside : ¬ tree.Within hash other) :
    ∃ now, (middle.handOver target targetSlot host).nodes[other]? = some now ∧
      old.Tracks now (hostedHeir (some hash) rename target host) := by
  obtain ⟨left, leftFound, leaves⟩ := pruned.tracks wellFormed registered outside
  obtain ⟨now, nowFound, hands⟩ :=
    (pruned.wellFormed_after wellFormed).handOver_tracks found host leftFound
  refine ⟨now, nowFound, (leaves.trans hands).congr fun child member => ?_⟩
  by_cases isLeaving : some hash = some child
  · rw [heirOf, hostedHeir, if_pos isLeaving, if_pos isLeaving, Option.bind_none]
  · rw [heirOf, hostedHeir, if_neg isLeaving, if_neg isLeaving, Option.bind_some,
      hostedHeir, if_neg nofun, unchanged, unchanged,
      carried.child_outside wellFormed registered outside member
        fun same => isLeaving (congrArg some same.symm)]

theorem Carried.hosted_follows {position : Option Nat} {after : Tree}
    (isAfter : after = between.updateNode host fun node =>
      node.withChild (clampPosition position node.children.length) target)
    (outside : ¬ tree.Within hash target) :
    tree.Renames after (some hash) host rename ∧
      tree.Followed after none rename
        (hostedHeir (some hash) rename target host) := by
  obtain ⟨node, hashRegistered, _⟩ := registered_of_parentOf pruned.above
  refine ⟨carried.renames fun within different registered => ?_, ?_⟩
  · rw [isAfter, nodes_updateNode,
      if_neg (carried.ne_host pruned found registered within different),
      carried.nodes within registered, if_neg different]
  · intro other old registered _
    by_cases within : tree.Within hash other
    · have tracks := (Node.Tracks.relabel old rename
          (if other = hash then some targetSlot.parent
            else old.parent.map rename)).congr fun child member =>
        show _ = hostedHeir (some hash) rename target host child by
          have above := (wellFormed.mem_children_iff registered).mp member
          have notLeaving := wellFormed.child_within registered within child member
          have notTarget : target ≠ child := by
            rintro rfl
            exact outside (.step above within)
          rw [hostedHeir, if_neg (mt Option.some.inj notLeaving), if_neg notTarget]
      have now := carried.nodes within registered
      -- The host may designate a child itself, and takes the target in.
      by_cases isHost : rename other = host
      · have hosts : after.nodes[rename other]? = (between.nodes[rename other]?).map
            fun node => node.withChild
              (clampPosition position node.children.length) target := by
          rw [isAfter, nodes_updateNode, if_pos isHost, isHost]
        rw [now, Option.map_some] at hosts
        exact ⟨_, hosts, .withChild tracks _ target⟩
      · refine ⟨_, ?_, .of_tracks tracks⟩
        rw [isAfter, nodes_updateNode, if_neg isHost, now]
    · obtain ⟨now, atHandOver, tracks⟩ :=
        carried.hosted_tracks wellFormed pruned found registered within
      have notHost : other ≠ host := by
        rintro rfl
        have free := carried.fresh .top hashRegistered
        rw [carried.top, atHandOver] at free
        cases free
      refine ⟨now, ?_, .of_tracks tracks⟩
      rw [carried.elsewhere within, isAfter, nodes_updateNode, if_neg notHost,
        carried.stays atHandOver]

end MovingHosts

theorem Hosted.follows {tree base middle after : Tree} (wellFormed : tree.WellFormed)
    {leaving : Option NodeHash} (vacates : tree.Vacates leaving base)
    {target host : NodeHash} {slot : Slot} {position : Option Nat}
    {subtree placed : Subtree} {hashes : List NodeHash}
    (cloned : ∀ hash, leaving = some hash → tree.cloneSubtree hash = some subtree)
    (hosted : base.Hosted middle after target host slot position subtree placed
      hashes) :
    ∃ rename, tree.Renames after leaving host rename ∧
      tree.Followed after none rename (hostedHeir leaving rename target host) := by
  cases vacates with
  | unmoved =>
      exact ⟨unchanged, .of_none tree after host, hosted.followed wellFormed⟩
  | @moved hash left parentNode base pruned same =>
      obtain ⟨node, registered, _⟩ := registered_of_parentOf pruned.above
      have sameId : (base.handOver target slot host).id = tree.id := by
        rw [handOver, updateNode, updateNode, same]
      obtain ⟨rename, carried⟩ := wellFormed.carried registered (cloned hash rfl)
        sameId
        (fun within => absent_updateNode.mpr
          (absent_updateNode.mpr (pruned.cleared.gone_single within)))
        hosted.isPlaced hosted.isTop
      have outside : ¬ tree.Within hash target := by
        intro within
        obtain ⟨targetNode, present, _⟩ :=
          registered_of_parentOf (of_slotOf hosted.found).1
        rw [pruned.cleared.gone_single within] at present
        cases present
      exact ⟨rename, carried.hosted_follows wellFormed pruned hosted.found
        hosted.isAfter outside⟩

theorem WellFormed.interpose_follows {tree : Tree} (wellFormed : tree.WellFormed)
    (origin : NodeOrigin) (target : NodeHash) (position : Option Nat)
    (copying : Bool) :
    Edit.Upholds tree
      (fun host after => ∃ rename,
        tree.Renames after (leaving copying origin) host rename ∧
        tree.Followed after none rename
          (hostedHeir (leaving copying origin) rename target host))
      (interpose origin target position copying tree) := by
  refine (wellFormed.interpose_admits origin target position copying).mono ?_
  rintro host after ⟨base, middle, slot, subtree, placed, hashes, vacates, comes,
    hosted⟩
  exact hosted.follows wellFormed vacates fun hash moves =>
    (incoming_of_leaving moves).symm.trans comes

/-- A shift does to each node what holds of a node that stays as it is, and of one that
moves a child of its own. -/
theorem shift_relates {tree : Tree} {relates : Node → Node → Prop} (hash : NodeHash)
    (position : Option Nat) (stays : ∀ node, relates node node)
    (moves : ∀ {parent : NodeHash} {node : Node} {source target : Nat},
      tree.nodes[parent]? = some node → node.children[source]? = some hash →
      target < node.children.length → relates node (node.moveChild source target hash)) :
    Edit.Upholds tree
      (fun _ after => ∀ (other : NodeHash) (old : Node),
        tree.nodes[other]? = some old →
        ∃ now, after.nodes[other]? = some now ∧ relates old now)
      (shift hash position tree) := by
  refine (WellFormed.shift_moves hash position).mono ?_
  rintro _ after ⟨slot, parentNode, parentRegistered, _, listed, rfl⟩
  obtain ⟨bound, _⟩ := List.getElem?_eq_some_iff.mp listed
  have fits : clampPosition position (parentNode.children.length - 1) <
      parentNode.children.length :=
    Nat.lt_of_le_of_lt (clampPosition_le _ _) (by omega)
  intro other old registered
  refine ⟨_, registered_updateNode registered slot.parent _, ?_⟩
  by_cases atParent : other = slot.parent
  · rw [atParent, parentRegistered, Option.some.injEq] at registered
    subst registered
    rw [if_pos atParent]
    exact moves parentRegistered listed fits
  · rw [if_neg atParent]
    exact stays old

theorem WellFormed.shift_follows {tree : Tree} (wellFormed : tree.WellFormed)
    (hash : NodeHash) (position : Option Nat) :
    Edit.Upholds tree (fun _ after => tree.Followed after none unchanged some)
      (shift hash position tree) := by
  refine (shift_relates hash position (fun node => .of_tracks (.refl node)) ?_).mono
    fun _ _ follows other old registered _ => follows other old registered
  intro parent node source target registered listed fits
  exact .moveChild (wellFormed.children_nodup registered) listed fits

namespace Exchanged

variable {tree after : Tree} (wellFormed : tree.WellFormed) {first second : NodeHash}
  {firstSlot secondSlot : Slot}
  (exchanged : tree.Exchanged after first second firstSlot secondSlot)
  {other : NodeHash} {old : Node} (registered : tree.nodes[other]? = some old)
include exchanged

theorem stayedHeir_of_ne {child : NodeHash} (notFirst : child ≠ first)
    (notSecond : child ≠ second) : stayedHeir tree after child = some child := by
  rw [stayedHeir, exchanged.parentOf_eq,
    Equiv.swap_apply_of_ne_of_ne notFirst notSecond, if_pos rfl]

theorem stayedHeir_first :
    stayedHeir tree after first =
      if secondSlot.parent = firstSlot.parent then some first else none := by
  rw [stayedHeir, exchanged.parentOf_eq, Equiv.swap_apply_left,
    (of_slotOf exchanged.firstFound).1, (of_slotOf exchanged.secondFound).1]
  simp only [Option.some.injEq]

include wellFormed registered

theorem follows_siblings (siblings : firstSlot.parent = secondSlot.parent)
    (atParent : other = firstSlot.parent) : ∃ now, after.nodes[other]? = some now ∧
      old.Follows now (stayedHeir tree after) := by
  obtain ⟨_, firstParent, parentRegistered, firstListed⟩ :=
    of_slotOf exchanged.firstFound
  obtain ⟨_, secondParent, sameRegistered, secondListed⟩ :=
    of_slotOf exchanged.secondFound
  rw [← siblings, ← atParent, registered, Option.some.injEq] at sameRegistered
  rw [← atParent, registered, Option.some.injEq] at parentRegistered
  subst parentRegistered sameRegistered
  have distinct := wellFormed.children_nodup registered
  have traded : old.Follows
      (old.swapChildren firstSlot.index secondSlot.index first second)
      (stayedHeir tree after) := by
    refine (Node.Follows.swapChildren distinct firstListed secondListed).congr
      fun child _ => ?_
    by_cases isFirst : child = first
    · rw [isFirst, exchanged.stayedHeir_first, if_pos siblings.symm]
    by_cases isSecond : child = second
    · rw [isSecond, exchanged.symm.stayedHeir_first, if_pos siblings]
    · rw [exchanged.stayedHeir_of_ne isFirst isSecond]
  refine ⟨_, exchanged.nodes_some registered, ?_⟩
  have atSecond := atParent.trans siblings
  rw [exchangedKind, if_pos atParent, if_pos atSecond,
    ← set_set_eq_map_swap distinct firstListed secondListed]
  exact traded.reparent _

theorem follows_apart (apart : firstSlot.parent ≠ secondSlot.parent)
    (atParent : other = firstSlot.parent) : ∃ now, after.nodes[other]? = some now ∧
      old.Follows now (stayedHeir tree after) := by
  obtain ⟨_, firstParent, parentRegistered, firstListed⟩ :=
    of_slotOf exchanged.firstFound
  rw [← atParent, registered, Option.some.injEq] at parentRegistered
  subst parentRegistered
  have distinct := wellFormed.children_nodup registered
  have notAtSecond : other ≠ secondSlot.parent := atParent ▸ apart
  have notListed : second ∉ old.children :=
    wellFormed.not_listed_elsewhere (of_slotOf exchanged.secondFound).1 registered
      notAtSecond
  have replaced : old.Follows (old.replaceChild firstSlot.index second)
      (stayedHeir tree after) := by
    refine (Node.Follows.replaceChild distinct firstListed second).congr
      fun child member => ?_
    by_cases isFirst : first = child
    · rw [if_pos isFirst, ← isFirst, exchanged.stayedHeir_first,
        if_neg (Ne.symm apart)]
    · have notSecond : child ≠ second := by
        rintro rfl
        exact notListed member
      rw [if_neg isFirst, exchanged.stayedHeir_of_ne (Ne.symm isFirst) notSecond]
  refine ⟨_, exchanged.nodes_some registered, ?_⟩
  rw [exchangedKind, if_pos atParent, if_neg notAtSecond,
    ← set_eq_map_swap distinct firstListed notListed]
  exact replaced.reparent _

theorem follows_elsewhere (notFirstParent : other ≠ firstSlot.parent)
    (notSecondParent : other ≠ secondSlot.parent) :
    ∃ now, after.nodes[other]? = some now ∧
      old.Follows now (stayedHeir tree after) := by
  have stays : ∀ child ∈ old.children, some child = stayedHeir tree after child := by
    intro child member
    refine (exchanged.stayedHeir_of_ne ?_ ?_).symm
    · rintro rfl
      exact wellFormed.not_listed_elsewhere (of_slotOf exchanged.firstFound).1
        registered notFirstParent member
    · rintro rfl
      exact wellFormed.not_listed_elsewhere (of_slotOf exchanged.secondFound).1
        registered notSecondParent member
  refine ⟨_, exchanged.nodes_some registered, ?_⟩
  rw [exchangedKind, if_neg notFirstParent, if_neg notSecondParent,
    children_elsewhere wellFormed exchanged.firstFound exchanged.secondFound
      registered notFirstParent notSecondParent]
  exact .of_tracks (((Node.Tracks.refl old).congr stays).reparent _)

omit registered in
theorem followed :
    tree.Followed after none unchanged (stayedHeir tree after) := by
  intro other old registered _
  rw [unchanged]
  by_cases atFirst : other = firstSlot.parent
  · by_cases siblings : firstSlot.parent = secondSlot.parent
    · exact exchanged.follows_siblings wellFormed registered siblings atFirst
    · exact exchanged.follows_apart wellFormed registered siblings atFirst
  by_cases atSecond : other = secondSlot.parent
  · have apart : secondSlot.parent ≠ firstSlot.parent := fun same =>
      atFirst (atSecond.trans same)
    exact exchanged.symm.follows_apart wellFormed registered apart atSecond
  · exact exchanged.follows_elsewhere wellFormed registered atFirst atSecond

end Exchanged

theorem WellFormed.swap_follows {tree : Tree} (wellFormed : tree.WellFormed)
    (first second : NodeHash) :
    Edit.Upholds tree
      (fun _ after => tree.Followed after none unchanged (stayedHeir tree after))
      (swap first second tree) := by
  refine (wellFormed.swap_exchanges first second).upholds.mono ?_
  rintro _ after ⟨_, firstSlot, secondSlot, exchanged⟩
  exact exchanged.followed wellFormed

theorem WellFormed.remove_follows {tree : Tree} (wellFormed : tree.WellFormed)
    (hash : NodeHash) :
    Edit.Upholds tree
      (fun _ after => tree.Followed after (some hash) unchanged
        (heirOf (some hash) unchanged))
      (remove hash tree) :=
  (wellFormed.remove_vacates hash).mono fun _ _ vacates =>
    vacates.followed wellFormed

/-- Filling the slot of a node that left does to each node what holds of a node that
stays as it is, and of the parent when its child is replaced. -/
theorem WellFormed.fillSlot_relates {tree : Tree} (wellFormed : tree.WellFormed)
    {relates : Node → Node → Prop} (current : Tree) {leaving : NodeHash} {slot : Slot}
    (found : tree.slotOf leaving = .ok slot)
    (cleared : tree.Cleared [leaving] tree.nodes current.nodes) (subtree : Subtree)
    (stays : ∀ {other : NodeHash} {old : Node}, tree.nodes[other]? = some old →
      other ≠ slot.parent → relates old old)
    (fills : ∀ {old : Node} (here : NodeHash), tree.nodes[slot.parent]? = some old →
      old.children[slot.index]? = some leaving →
      relates old (old.replaceChild slot.index here)) :
    Edit.Delivers (current.Affords subtree.hints) True
      (fun _ after => ∀ (other : NodeHash) (old : Node),
        tree.nodes[other]? = some old → ¬ tree.Gone (some leaving) other →
        ∃ now, after.nodes[other]? = some now ∧ relates old now)
      (fillSlot slot subtree current) := by
  obtain ⟨above, parentNode, parentRegistered, listed⟩ := of_slotOf found
  have parentCurrent : current.nodes[slot.parent]? = some parentNode := by
    rw [cleared.kept_single (wellFormed.not_within_child above), parentRegistered]
  refine (fillSlot_placed parentCurrent subtree).weaken ?_
  rintro here after ⟨placed, hashes, _, isPlaced⟩ other old registered notGone
  refine ⟨_, nodes_of_filled cleared isPlaced registered
    (gone_some_iff.not.mp notGone), ?_⟩
  by_cases atParent : other = slot.parent
  · subst atParent
    rw [registered, Option.some.injEq] at parentRegistered
    subst parentRegistered
    rw [if_pos rfl]
    exact fills here registered listed
  · rw [if_neg atParent]
    exact stays registered atParent

/-- The designations of the nodes that stay go on if a subtree fills the slot of
the node that left. -/
theorem WellFormed.fillSlot_follows {tree : Tree} (wellFormed : tree.WellFormed)
    (current : Tree) {leaving : NodeHash} {slot : Slot}
    (found : tree.slotOf leaving = .ok slot)
    (cleared : tree.Cleared [leaving] tree.nodes current.nodes)
    (subtree : Subtree) :
    Edit.Delivers (current.Affords subtree.hints) True
      (fun _ after => tree.Followed after (some leaving) unchanged
        (heirOf (some leaving) unchanged))
      (fillSlot slot subtree current) := by
  obtain ⟨above, _⟩ := of_slotOf found
  refine wellFormed.fillSlot_relates current found cleared subtree ?_ ?_
  · intro other old registered notParent
    exact .of_tracks (wellFormed.tracks_elsewhere above registered notParent)
  · intro old here registered listed
    rw [heirOf_unchanged]
    exact .replaceChild (wellFormed.children_nodup registered) listed here

end Tree

namespace TreePair

open BehaviorTree.Tree

variable {pair : TreePair} (wellFormed : pair.WellFormed)
include wellFormed

theorem addForeign_follows (hash target : NodeHash) (position : Option Nat)
    (copying : Bool) :
    Edit.Upholds pair
      (fun _ after =>
        pair.dest.Followed after.dest none unchanged (heirOf none unchanged) ∧
        pair.source.Followed after.source (leaving copying (.resident hash))
          unchanged (heirOf (leaving copying (.resident hash)) unchanged))
      (addForeign hash target position copying pair) := by
  refine (addForeign_admits wellFormed hash target position copying).mono ?_
  rintro top after ⟨subtree, placed, hashes, _, vacates, admitted⟩
  exact ⟨admitted.followed, vacates.followed wellFormed.source⟩

theorem interposeForeign_follows (hash target : NodeHash) (position : Option Nat)
    (copying : Bool) :
    Edit.Upholds pair
      (fun host after =>
        pair.dest.Followed after.dest none unchanged
          (hostedHeir none unchanged target host) ∧
        pair.source.Followed after.source (leaving copying (.resident hash))
          unchanged (heirOf (leaving copying (.resident hash)) unchanged))
      (interposeForeign hash target position copying pair) := by
  refine (interposeForeign_admits wellFormed hash target position copying).mono ?_
  rintro host after ⟨middle, slot, subtree, placed, hashes, _, vacates, hosted⟩
  exact ⟨hosted.followed wellFormed.dest, vacates.followed wellFormed.source⟩

theorem swapForeign_follows (first second : NodeHash) :
    Edit.Upholds pair
      (fun _ after =>
        pair.dest.Followed after.dest (some first) unchanged
          (heirOf (some first) unchanged) ∧
        pair.source.Followed after.source (some second) unchanged
          (heirOf (some second) unchanged))
      (swapForeign first second pair) := by
  rcases WellFormed.swapForeign_cases first second with
    ⟨firstSlot, secondSlot, firstFound, secondFound⟩ | ⟨⟨cause, refused⟩, _⟩
  · obtain ⟨firstTree, secondTree, dest, source, _, _, _, _, _, _, firstCleared,
      secondCleared, delivers⟩ :=
      wellFormed.swapForeign_delivers firstFound secondFound
    exact .of_completes (delivers
      (wellFormed.dest.fillSlot_follows dest firstFound firstCleared secondTree)
      (wellFormed.source.fillSlot_follows source secondFound secondCleared
        firstTree)).completes
  · rw [refused]
    exact rfl

end TreePair

/-- The edits of a tree have its designations go on.  Only a node that moves may
give other hashes to what is below it. -/
structure Tree.EditsFollow (tree : Tree) : Prop where
  adding : ∀ (origin : NodeOrigin) (target : NodeHash) (position : Option Nat)
    (copying : Bool), Edit.Upholds tree
      (fun top after => ∃ rename,
        tree.Renames after (leaving copying origin) top rename ∧
        tree.Followed after none rename (heirOf (leaving copying origin) rename))
      (add origin target position copying tree)
  interposing : ∀ (origin : NodeOrigin) (target : NodeHash) (position : Option Nat)
    (copying : Bool), Edit.Upholds tree
      (fun host after => ∃ rename,
        tree.Renames after (leaving copying origin) host rename ∧
        tree.Followed after none rename
          (hostedHeir (leaving copying origin) rename target host))
      (interpose origin target position copying tree)
  shifting : ∀ (hash : NodeHash) (position : Option Nat), Edit.Upholds tree
      (fun _ after => tree.Followed after none unchanged some)
      (shift hash position tree)
  swapping : ∀ first second : NodeHash, Edit.Upholds tree
      (fun _ after => tree.Followed after none unchanged (stayedHeir tree after))
      (swap first second tree)
  removing : ∀ hash : NodeHash, Edit.Upholds tree
      (fun _ after => tree.Followed after (some hash) unchanged
        (heirOf (some hash) unchanged))
      (remove hash tree)

open BehaviorTree.Tree in
/-- The edits of two trees have the designations in both of them go on. -/
structure TreePair.EditsFollow (pair : TreePair) : Prop where
  adding : ∀ (hash target : NodeHash) (position : Option Nat) (copying : Bool),
    Edit.Upholds pair
      (fun _ after =>
        pair.dest.Followed after.dest none unchanged (heirOf none unchanged) ∧
        pair.source.Followed after.source (leaving copying (.resident hash))
          unchanged (heirOf (leaving copying (.resident hash)) unchanged))
      (addForeign hash target position copying pair)
  interposing : ∀ (hash target : NodeHash) (position : Option Nat) (copying : Bool),
    Edit.Upholds pair
      (fun host after =>
        pair.dest.Followed after.dest none unchanged
          (hostedHeir none unchanged target host) ∧
        pair.source.Followed after.source (leaving copying (.resident hash))
          unchanged (heirOf (leaving copying (.resident hash)) unchanged))
      (interposeForeign hash target position copying pair)
  swapping : ∀ first second : NodeHash, Edit.Upholds pair
      (fun _ after =>
        pair.dest.Followed after.dest (some first) unchanged
          (heirOf (some first) unchanged) ∧
        pair.source.Followed after.source (some second) unchanged
          (heirOf (some second) unchanged))
      (swapForeign first second pair)

namespace Tree

/-- Designations follow their children through every edit of well-formed trees. -/
theorem edits_follow :
    (∀ tree : Tree, tree.WellFormed → tree.EditsFollow) ∧
      ∀ pair : TreePair, pair.WellFormed → pair.EditsFollow := by
  constructor
  · intro tree wellFormed
    exact
      { adding := wellFormed.add_follows
        interposing := wellFormed.interpose_follows
        shifting := wellFormed.shift_follows
        swapping := wellFormed.swap_follows
        removing := wellFormed.remove_follows }
  · intro pair wellFormed
    exact
      { adding := TreePair.addForeign_follows wellFormed
        interposing := TreePair.interposeForeign_follows wellFormed
        swapping := TreePair.swapForeign_follows wellFormed }

/-- The patrol ends with the one in front as long as that is part of it. -/
theorem front_followed :
    ∃ tree lit node, camp.grown patrol = some tree ∧ outpost.grown lamp = some lit ∧
      tree.nodes[(⟨"patrol-1"⟩ : NodeHash)]? = some node ∧
      node.Designates ⟨"front-1"⟩ ∧
      (∃ after now, shift ⟨"front-1"⟩ none tree = .ok ⟨⟩ after ∧
        after.nodes[(⟨"patrol-1"⟩ : NodeHash)]? = some now ∧
        now.PointsAt ⟨"front-1"⟩) ∧
      (∃ host after now,
        interpose (.detached inversion) ⟨"front-1"⟩ none false tree =
          .ok host after ∧
        after.nodes[(⟨"patrol-1"⟩ : NodeHash)]? = some now ∧ now.PointsAt host) ∧
      ∃ tops after now,
        swapForeign ⟨"front-1"⟩ ⟨"lamp-2"⟩ { dest := tree, source := lit } =
          .ok tops after ∧
        after.dest.nodes[(⟨"patrol-1"⟩ : NodeHash)]? = some now ∧
        now.kind.primaryChild = none := by
  have checked :
      (camp.grown patrol).any (fun tree => (outpost.grown lamp).any fun lit =>
        (shift ⟨"front-1"⟩ none).goesThrough tree &&
        (interpose (.detached inversion) ⟨"front-1"⟩ none false).goesThrough tree &&
        (swapForeign ⟨"front-1"⟩ ⟨"lamp-2"⟩).goesThrough
          { dest := tree, source := lit } &&
        (tree.nodes[(⟨"patrol-1"⟩ : NodeHash)]?).any fun node =>
          decide (node.kind.primaryChild = some 0 ∧
            node.children[0]? = some ⟨"front-1"⟩)) = true := by
    decide +kernel
  obtain ⟨tree, settled, passed⟩ := (Option.any_eq_true _ _).mp checked
  obtain ⟨lit, lampSettled, passed⟩ := (Option.any_eq_true _ _).mp passed
  simp only [Bool.and_eq_true, Edit.goesThrough_iff] at passed
  obtain ⟨⟨⟨⟨_, later, shifted⟩, host, hosting, interposed⟩, tops, pair, swapped⟩,
    found⟩ := passed
  obtain ⟨node, registered, holds⟩ := (Option.any_eq_true _ _).mp found
  have designates : node.Designates ⟨"front-1"⟩ := ⟨0, of_decide_eq_true holds⟩
  obtain ⟨wellFormed, _⟩ := of_grown settled
  obtain ⟨litWellFormed, _⟩ := of_grown lampSettled
  have stays : ¬ tree.Gone none ⟨"patrol-1"⟩ := tree.not_gone_none _
  have outside : ¬ tree.Gone (some ⟨"front-1"⟩) ⟨"patrol-1"⟩ :=
    gone_some_iff.not.mpr (wellFormed.not_within_child
      ((wellFormed.mem_children_iff registered).mp designates.mem))
  have edits := edits_follow.1 tree wellFormed
  have shifting := edits.shifting ⟨"front-1"⟩ none
  have interposing := edits.interposing (.detached inversion) ⟨"front-1"⟩ none false
  have swapping := (edits_follow.2 { dest := tree, source := lit }
    ⟨wellFormed, litWellFormed⟩).swapping ⟨"front-1"⟩ ⟨"lamp-2"⟩
  rw [shifted] at shifting
  rw [interposed] at interposing
  rw [swapped] at swapping
  obtain ⟨rename, renames, hosted⟩ := interposing
  refine ⟨tree, lit, node, settled, lampSettled, registered, designates,
    ⟨later, ?_⟩, ⟨host, hosting, ?_⟩, tops, pair, ?_⟩
  · obtain ⟨now, nowFound, follows⟩ := shifting _ node registered stays
    exact ⟨now, shifted, nowFound, follows.pointsAt designates rfl⟩
  · obtain ⟨now, nowFound, follows⟩ := hosted _ node registered stays
    rw [renames.elsewhere stays] at nowFound
    exact ⟨now, interposed, nowFound, follows.pointsAt designates rfl⟩
  · obtain ⟨now, nowFound, follows⟩ := swapping.1 _ node registered outside
    exact ⟨now, swapped, nowFound, follows.cleared designates rfl⟩

end Tree

end BehaviorTree
