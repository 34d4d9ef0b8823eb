import BehaviorTree.Proofs.Tree.Admitting
import BehaviorTree.Proofs.Tree.Following

/-!
# Designations beyond the last child

The index that a Parallel designates may lie beyond its last child, and is then that
of no child.  Every edit that goes through leaves it as far beyond the last child as
it was.  The largest index has no successor: a Parallel that designates it takes no
child in, since the edit runs out of indices.
-/

namespace BehaviorTree

namespace NodeKind

/-- The designated index lies beyond the last of so many children. -/
def Overshoots (kind : NodeKind) (count : Nat) (primary : UInt64) : Prop :=
  kind.primaryChild = some primary ∧ count ≤ primary.toNat

/-- An index beyond the last child stays as far beyond it while the number of
children changes. -/
def KeepsDistance (old : NodeKind) (count : Nat) (now : NodeKind)
    (countNow : Nat) : Prop :=
  ∀ primary, old.Overshoots count primary →
    ∃ index, now.Overshoots countNow index ∧
      index.toNat + count = primary.toNat + countNow

namespace KeepsDistance

variable {kind old middle now : NodeKind} {count countBetween countNow : Nat}

theorem refl (kind : NodeKind) (count : Nat) :
    kind.KeepsDistance count kind count :=
  fun primary overshoots => ⟨primary, overshoots, rfl⟩

theorem trans (before : old.KeepsDistance count middle countBetween)
    (after : middle.KeepsDistance countBetween now countNow) :
    old.KeepsDistance count now countNow := by
  intro primary overshoots
  obtain ⟨index, still, distance⟩ := before primary overshoots
  obtain ⟨final, beyond, distanceNow⟩ := after index still
  exact ⟨final, beyond, by omega⟩

/-- A child that comes in moves the index up by one, if there is such an index. -/
theorem withRoomAt {index : Nat} (fits : index ≤ count)
    (room : kind.overflowsAt index = false) :
    kind.KeepsDistance count (kind.withRoomAt index) (count + 1) := by
  rintro primary ⟨designated, beyond⟩
  have behind : index ≤ primary.toNat := Nat.le_trans fits beyond
  have next : (primary + 1).toNat = primary.toNat + 1 := by
    have bound := primary.toNat_lt_size
    rw [overflowsAt, designated, Option.any_some, decide_eq_false_iff_not] at room
    rw [UInt64.toNat_add, UInt64.toNat_one, Nat.mod_eq_of_lt]
    change _ < UInt64.size
    omega
  refine ⟨primary + 1, ⟨?_, ?_⟩, ?_⟩
  · rw [NodeKind.withRoomAt, primaryChild_mapPrimary, designated, Option.bind_some,
      if_pos behind]
  · omega
  · omega

theorem childAdded {index : Nat} {now : NodeKind} (fits : index ≤ count)
    (added : kind.childAdded index = some now) :
    kind.KeepsDistance count now (count + 1) := by
  rw [NodeKind.childAdded] at added
  split at added
  · cases added
  · next room =>
      obtain rfl := Option.some.inj added
      exact .withRoomAt fits (Bool.eq_false_iff.mpr room)

theorem childRemoved {index : Nat} (below : index < count) :
    kind.KeepsDistance count (kind.childRemoved index) (count - 1) := by
  rintro primary ⟨designated, beyond⟩
  have behind : index < primary.toNat := Nat.lt_of_lt_of_le below beyond
  have previous := toNat_sub_one behind
  refine ⟨primary - 1, ⟨?_, ?_⟩, ?_⟩
  · rw [NodeKind.childRemoved, primaryChild_mapPrimary, designated,
      Option.bind_some, if_neg (Nat.ne_of_gt behind), if_pos behind]
  · omega
  · omega

theorem childRemoved_withRoomAt {source target : Nat} (sourceBelow : source < count)
    (targetBelow : target < count) :
    kind.KeepsDistance count ((kind.childRemoved source).withRoomAt target) count := by
  intro primary overshoots
  have inRange : source < UInt64.size :=
    Nat.lt_trans (Nat.lt_of_lt_of_le sourceBelow overshoots.2) primary.toNat_lt_size
  have added : (kind.childRemoved source).KeepsDistance (count - 1)
      ((kind.childRemoved source).withRoomAt target) (count - 1 + 1) :=
    withRoomAt (Nat.le_sub_one_of_lt targetBelow)
      (kind.overflowsAt_childRemoved (.inl inRange))
  rw [Nat.sub_add_cancel (Nat.one_le_of_lt targetBelow)] at added
  exact (childRemoved sourceBelow).trans added primary overshoots

theorem childReplaced {index : Nat} (below : index < count) :
    kind.KeepsDistance count (kind.childReplaced index) count :=
  childRemoved_withRoomAt below below

theorem childrenSwapped {first second : Nat} (firstBelow : first < count)
    (secondBelow : second < count) :
    kind.KeepsDistance count (kind.childrenSwapped first second) count := by
  rintro primary ⟨designated, beyond⟩
  refine ⟨primary, ⟨?_, beyond⟩, rfl⟩
  rw [NodeKind.childrenSwapped, primaryChild_mapPrimary, designated,
    Option.bind_some, if_neg (by omega), if_neg (by omega)]

theorem childMoved {source target : Nat} (sourceBelow : source < count)
    (targetBelow : target < count) :
    kind.KeepsDistance count (kind.childMoved source target) count := by
  intro primary overshoots
  have elsewhere : ∀ other, kind.primaryChild = some other →
      other.toNat ≠ source := by
    intro other isOther
    have beyond := overshoots.2
    rw [overshoots.1, Option.some.injEq] at isOther
    subst isOther
    omega
  rw [childMoved_eq target elsewhere]
  exact childRemoved_withRoomAt sourceBelow targetBelow primary overshoots

end KeepsDistance

/-- What holds of an index beyond the last child when one of the children changes.
Only the largest index keeps a child from coming in, and it does not if another child
has just left the place. -/
structure ChangesKeepDistance (kind : NodeKind) (count : Nat) : Prop where
  adding : ∀ index ≤ count, ∀ now, kind.childAdded index = some now →
    kind.KeepsDistance count now (count + 1)
  overflowing : ∀ index, kind.childAdded index = none ↔
    ∃ primary, kind.primaryChild = some primary ∧ index ≤ primary.toNat ∧
      primary.toNat + 1 = UInt64.size
  removing : ∀ index < count,
    kind.KeepsDistance count (kind.childRemoved index) (count - 1)
  refilling : ∀ index,
    (kind.childRemoved index).childAdded index = some (kind.childReplaced index)
  replacing : ∀ index < count,
    kind.KeepsDistance count (kind.childReplaced index) count
  moving : ∀ source < count, ∀ target < count,
    kind.KeepsDistance count (kind.childMoved source target) count
  swapping : ∀ first < count, ∀ second < count,
    kind.KeepsDistance count (kind.childrenSwapped first second) count

theorem changesKeepDistance (kind : NodeKind) (count : Nat) :
    kind.ChangesKeepDistance count where
  adding _ fits _ := .childAdded fits
  overflowing _ := childAdded_eq_none_iff
  removing _ := .childRemoved
  refilling := kind.childAdded_childRemoved_self
  replacing _ := .childReplaced
  moving _ sourceBelow _ := .childMoved sourceBelow
  swapping _ firstBelow _ := .childrenSwapped firstBelow

end NodeKind

namespace Node

/-- The index designated in `old` stays as far beyond the last child. -/
def KeepsDistance (old now : Node) : Prop :=
  old.kind.KeepsDistance old.children.length now.kind now.children.length

namespace KeepsDistance

theorem refl (node : Node) : node.KeepsDistance node :=
  NodeKind.KeepsDistance.refl _ _

theorem withChild {node : Node} {index : Nat}
    (fits : index ≤ node.children.length) (room : node.kind.overflowsAt index = false)
    (child : NodeHash) : node.KeepsDistance (node.withChild index child) := by
  rw [KeepsDistance, Node.withChild, List.length_insertIdx_of_le_length fits]
  exact .withRoomAt fits room

theorem removeChild {node : Node} {index : Nat}
    (below : index < node.children.length) :
    node.KeepsDistance (node.removeChild index) := by
  rw [KeepsDistance, Node.removeChild, List.length_eraseIdx_of_lt below]
  exact .childRemoved below

theorem replaceChild {node : Node} {index : Nat}
    (below : index < node.children.length) (child : NodeHash) :
    node.KeepsDistance (node.replaceChild index child) := by
  rw [KeepsDistance, Node.replaceChild, List.length_set]
  exact .childReplaced below

theorem hostChild (node : Node) (index : Nat) (host : NodeHash) :
    node.KeepsDistance (node.hostChild index host) := by
  rw [KeepsDistance, Node.hostChild, List.length_set]
  exact .refl _ _

theorem moveChild {node : Node} {source target : Nat}
    (sourceBelow : source < node.children.length)
    (targetBelow : target < node.children.length) (child : NodeHash) :
    node.KeepsDistance (node.moveChild source target child) := by
  have room : target ≤ (node.children.eraseIdx source).length := by
    rw [List.length_eraseIdx_of_lt sourceBelow]
    exact Nat.le_sub_one_of_lt targetBelow
  rw [KeepsDistance, Node.moveChild, List.length_insertIdx_of_le_length room,
    List.length_eraseIdx_of_lt sourceBelow,
    Nat.sub_add_cancel (Nat.one_le_of_lt sourceBelow)]
  exact .childMoved sourceBelow targetBelow

theorem after_vacated {old between now : Node}
    (lost : between = old ∨ ∃ index, index < old.children.length ∧
      between = old.removeChild index)
    (keeps : between.KeepsDistance now) : old.KeepsDistance now := by
  rcases lost with rfl | ⟨index, below, rfl⟩
  · exact keeps
  · exact NodeKind.KeepsDistance.trans (removeChild below) keeps

end KeepsDistance

end Node

namespace Tree

/-- Every node of the tree that is not gone is in `after`, and an index that it
designates beyond its last child stays as far beyond it. -/
def KeepsDistances (tree after : Tree) (gone : Option NodeHash) : Prop :=
  ∀ (other : NodeHash) (old : Node), tree.nodes[other]? = some old →
    ¬ tree.Gone gone other →
    ∃ now, after.nodes[other]? = some now ∧ old.KeepsDistance now

section Coming

variable {tree base after : Tree} {leaving : Option NodeHash}
  (vacates : tree.Vacates leaving base) {target : NodeHash}
  {position : Option Nat} {subtree placed : Subtree} {hashes : List NodeHash}
include vacates

theorem Vacates.keepsDistances : tree.KeepsDistances base leaving := by
  intro other old registered notGone
  obtain ⟨now, found, lost⟩ := vacates.stays registered notGone
  exact ⟨now, found, .after_vacated lost (.refl now)⟩

theorem Admitted.keepsDistances {top : NodeHash}
    (admitted : base.Admitted after target position subtree placed hashes top) :
    tree.KeepsDistances after leaving := by
  intro other old registered notGone
  obtain ⟨between, found, lost⟩ := vacates.stays registered notGone
  refine ⟨_, admitted.isPlaced.kept (registered_updateNode found target _),
    .after_vacated lost ?_⟩
  split
  · next atTarget =>
      obtain ⟨node, isTarget, room⟩ := admitted.found
      obtain rfl : between = node :=
        Option.some.inj (found.symm.trans (atTarget ▸ isTarget))
      exact .withChild (clampPosition_le _ _) room top
  · exact .refl between

theorem Hosted.keepsDistances {middle : Tree} {host : NodeHash} {slot : Slot}
    (wellFormed : tree.WellFormed)
    (hosted : base.Hosted middle after target host slot position subtree placed
      hashes) : tree.KeepsDistances after leaving := by
  intro other old registered notGone
  obtain ⟨between, found, lost⟩ := vacates.stays registered notGone
  refine ⟨_, hosted.nodes_old (vacates.wellFormed_after wellFormed) found,
    .after_vacated lost ?_⟩
  split
  · exact .refl _
  split
  · exact .hostChild between _ host
  · exact .refl between

end Coming

/-- The host keeps its distance when the target comes in. -/
def HostKeepsDistance (after : Tree) (subtree : Subtree) (host : NodeHash) : Prop :=
  ∃ now, after.nodes[host]? = some now ∧
    subtree.kind.KeepsDistance subtree.children.length now.kind now.children.length

theorem Hosted.hostKeepsDistance {tree middle after : Tree}
    {target host : NodeHash} {slot : Slot} {position : Option Nat}
    {subtree placed : Subtree} {hashes : List NodeHash}
    (hosted : tree.Hosted middle after target host slot position subtree placed
      hashes) : after.HostKeepsDistance subtree host := by
  obtain ⟨tops, now, listed, same, _⟩ := hosted.nodes_host
  have count := length_tops listed same
  let host' : Node :=
    { name := subtree.name, hash := host, parent := some slot.parent
      children := tops, weight := subtree.weight, kind := subtree.kind }
  have keeps : host'.KeepsDistance
      (host'.withChild (clampPosition position tops.length) target) :=
    .withChild (clampPosition_le _ _) (count ▸ hosted.room) target
  rw [Node.KeepsDistance] at keeps
  exact ⟨_, now, count ▸ keeps⟩

theorem WellFormed.shift_keepsDistances {tree : Tree} (hash : NodeHash)
    (position : Option Nat) :
    Edit.Upholds tree (fun _ after => tree.KeepsDistances after none)
      (shift hash position tree) := by
  refine (shift_relates hash position Node.KeepsDistance.refl ?_).mono
    fun _ _ keeps other old registered _ => keeps other old registered
  intro parent node source target registered listed fits
  exact .moveChild (List.getElem?_eq_some_iff.mp listed).1 fits hash

theorem Exchanged.keepsDistances {tree after : Tree} {first second : NodeHash}
    {firstSlot secondSlot : Slot}
    (exchanged : tree.Exchanged after first second firstSlot secondSlot) :
    tree.KeepsDistances after none := by
  intro other old registered _
  have bound : ∀ {hash : NodeHash} {slot : Slot}, tree.slotOf hash = .ok slot →
      other = slot.parent → slot.index < old.children.length := by
    rintro hash slot found rfl
    obtain ⟨_, parentNode, parentRegistered, listed⟩ := of_slotOf found
    rw [registered, Option.some.injEq] at parentRegistered
    subst parentRegistered
    exact (List.getElem?_eq_some_iff.mp listed).1
  refine ⟨_, exchanged.nodes_some registered, ?_⟩
  rw [Node.KeepsDistance, List.length_map, exchangedKind]
  split
  · next atFirst =>
      have firstBound := bound exchanged.firstFound atFirst
      split
      · next atSecond =>
          exact .childrenSwapped firstBound (bound exchanged.secondFound atSecond)
      · exact .childReplaced firstBound
  split
  · next atSecond => exact .childReplaced (bound exchanged.secondFound atSecond)
  · exact .refl _ _

theorem WellFormed.swap_keepsDistances {tree : Tree} (wellFormed : tree.WellFormed)
    (first second : NodeHash) :
    Edit.Upholds tree (fun _ after => tree.KeepsDistances after none)
      (swap first second tree) := by
  refine (wellFormed.swap_exchanges first second).upholds.mono ?_
  rintro _ after ⟨_, firstSlot, secondSlot, exchanged⟩
  exact exchanged.keepsDistances

theorem WellFormed.remove_keepsDistances {tree : Tree}
    (wellFormed : tree.WellFormed) (hash : NodeHash) :
    Edit.Upholds tree (fun _ after => tree.KeepsDistances after (some hash))
      (remove hash tree) :=
  (wellFormed.remove_vacates hash).mono fun _ _ vacates => vacates.keepsDistances

theorem WellFormed.fillSlot_keepsDistances {tree : Tree}
    (wellFormed : tree.WellFormed) (current : Tree) {leaving : NodeHash}
    {slot : Slot} (found : tree.slotOf leaving = .ok slot)
    (cleared : tree.Cleared [leaving] tree.nodes current.nodes)
    (subtree : Subtree) :
    Edit.Delivers (current.Affords subtree.hints) True
      (fun _ after => tree.KeepsDistances after (some leaving))
      (fillSlot slot subtree current) :=
  wellFormed.fillSlot_relates current found cleared subtree
    (fun {_ old} _ _ => .refl old)
    fun here _ listed => .replaceChild (List.getElem?_eq_some_iff.mp listed).1 here

/-- The edits of a tree keep indices that lie beyond the last child as far beyond
it, that of a host included, which takes the target in. -/
structure EditsKeepDistance (tree : Tree) : Prop where
  adding : ∀ (origin : NodeOrigin) (target : NodeHash) (position : Option Nat)
    (copying : Bool), Edit.Upholds tree
      (fun _ after => tree.KeepsDistances after (leaving copying origin))
      (add origin target position copying tree)
  interposing : ∀ (origin : NodeOrigin) (target : NodeHash) (position : Option Nat)
    (copying : Bool), Edit.Upholds tree
      (fun host after => tree.KeepsDistances after (leaving copying origin) ∧
        ∃ subtree, tree.incoming origin = some subtree ∧
          after.HostKeepsDistance subtree host)
      (interpose origin target position copying tree)
  shifting : ∀ (hash : NodeHash) (position : Option Nat), Edit.Upholds tree
      (fun _ after => tree.KeepsDistances after none) (shift hash position tree)
  swapping : ∀ first second : NodeHash, Edit.Upholds tree
      (fun _ after => tree.KeepsDistances after none) (swap first second tree)
  removing : ∀ hash : NodeHash, Edit.Upholds tree
      (fun _ after => tree.KeepsDistances after (some hash)) (remove hash tree)

theorem WellFormed.editsKeepDistance {tree : Tree} (wellFormed : tree.WellFormed) :
    tree.EditsKeepDistance where
  adding := by
    intro origin target position copying
    refine (wellFormed.add_admits origin target position copying).mono ?_
    rintro top after ⟨base, subtree, placed, hashes, vacates, _, admitted⟩
    exact admitted.keepsDistances vacates
  interposing := by
    intro origin target position copying
    refine (wellFormed.interpose_admits origin target position copying).mono ?_
    rintro host after ⟨base, middle, slot, subtree, placed, hashes, vacates, comes,
      hosted⟩
    exact ⟨hosted.keepsDistances vacates wellFormed, subtree, comes,
      hosted.hostKeepsDistance⟩
  shifting := WellFormed.shift_keepsDistances
  swapping := wellFormed.swap_keepsDistances
  removing := wellFormed.remove_keepsDistances

end Tree

namespace TreePair

open BehaviorTree.Tree

/-- The edits of two trees keep indices that lie beyond the last child as far
beyond it in both of them. -/
structure EditsKeepDistance (pair : TreePair) : Prop where
  adding : ∀ (hash target : NodeHash) (position : Option Nat) (copying : Bool),
    Edit.Upholds pair
      (fun _ after => pair.dest.KeepsDistances after.dest none ∧
        pair.source.KeepsDistances after.source (leaving copying (.resident hash)))
      (addForeign hash target position copying pair)
  interposing : ∀ (hash target : NodeHash) (position : Option Nat) (copying : Bool),
    Edit.Upholds pair
      (fun host after => pair.dest.KeepsDistances after.dest none ∧
        pair.source.KeepsDistances after.source
          (leaving copying (.resident hash)) ∧
        ∃ subtree, pair.source.cloneSubtree hash = some subtree ∧
          after.dest.HostKeepsDistance subtree host)
      (interposeForeign hash target position copying pair)
  swapping : ∀ first second : NodeHash, Edit.Upholds pair
      (fun _ after => pair.dest.KeepsDistances after.dest (some first) ∧
        pair.source.KeepsDistances after.source (some second))
      (swapForeign first second pair)

theorem WellFormed.editsKeepDistance {pair : TreePair}
    (wellFormed : pair.WellFormed) : pair.EditsKeepDistance where
  adding := by
    intro hash target position copying
    refine (addForeign_admits wellFormed hash target position copying).mono ?_
    rintro top after ⟨subtree, placed, hashes, _, vacates, admitted⟩
    exact ⟨admitted.keepsDistances .unmoved, vacates.keepsDistances⟩
  interposing := by
    intro hash target position copying
    refine (interposeForeign_admits wellFormed hash target position copying).mono ?_
    rintro host after ⟨middle, slot, subtree, placed, hashes, cloned, vacates,
      hosted⟩
    exact ⟨hosted.keepsDistances .unmoved wellFormed.dest, vacates.keepsDistances,
      subtree, cloned, hosted.hostKeepsDistance⟩
  swapping := by
    intro first second
    rcases WellFormed.swapForeign_cases first second with
      ⟨firstSlot, secondSlot, firstFound, secondFound⟩ | ⟨⟨cause, refused⟩, _⟩
    · obtain ⟨firstTree, secondTree, dest, source, _, _, _, _, _, _, firstCleared,
        secondCleared, delivers⟩ :=
        wellFormed.swapForeign_delivers firstFound secondFound
      exact .of_completes (delivers
        (wellFormed.dest.fillSlot_keepsDistances dest firstFound firstCleared
          secondTree)
        (wellFormed.source.fillSlot_keepsDistances source secondFound secondCleared
          firstTree)).completes
    · rw [refused]
      exact rfl

end TreePair

namespace Tree

/-- An index beyond the last child stays as far beyond it through every change of a
child and every edit of well-formed trees that goes through.  A child cannot come in
just if the index to follow is the largest one. -/
theorem overshooting_keeps_distance {tree source : Tree}
    (wellFormed : tree.WellFormed) (sourceWellFormed : source.WellFormed) :
    (∀ (kind : NodeKind) (count : Nat), kind.ChangesKeepDistance count) ∧
      tree.EditsKeepDistance ∧
      TreePair.EditsKeepDistance { dest := tree, source } := by
  exact ⟨NodeKind.changesKeepDistance, wellFormed.editsKeepDistance,
    TreePair.WellFormed.editsKeepDistance ⟨wellFormed, sourceWellFormed⟩⟩

/-- Two on watch who are to be relieved by an eighth. -/
def squad : Subtree :=
  { name := "squad", hash := some ⟨"squad-1"⟩
    kind := .parallel { primaryChild := some 7 }
    children :=
      [{ name := "scout", hash := some ⟨"scout-1"⟩, kind := .command "mark_a" },
       { name := "sentry", hash := some ⟨"sentry-1"⟩, kind := .command "mark_b" }] }

/-- The eighth is as far away as before when one leaves, and when a lamp comes in. -/
theorem squad_waits :
    ∃ tree lit node, camp.grown squad = some tree ∧ outpost.grown lamp = some lit ∧
      tree.nodes[(⟨"squad-1"⟩ : NodeHash)]? = some node ∧
      node.kind.Overshoots node.children.length 7 ∧
      (∃ scout after now index, remove ⟨"scout-1"⟩ tree = .ok scout after ∧
        after.nodes[(⟨"squad-1"⟩ : NodeHash)]? = some now ∧
        now.kind.Overshoots 1 index ∧ index.toNat = 6) ∧
      ∃ top after now index, addForeign ⟨"lamp-2"⟩ ⟨"squad-1"⟩ none false
          { dest := tree, source := lit } = .ok top after ∧
        after.dest.nodes[(⟨"squad-1"⟩ : NodeHash)]? = some now ∧
        now.kind.Overshoots 3 index ∧ index.toNat = 8 := by
  let counts (tree : Tree) (count : Nat) : Bool :=
    (tree.childrenOf ⟨"squad-1"⟩).length = count
  have checked :
      (camp.grown squad).any (fun tree => (outpost.grown lamp).any fun lit =>
        (remove ⟨"scout-1"⟩).goesThrough tree &&
        (addForeign ⟨"lamp-2"⟩ ⟨"squad-1"⟩ none false).goesThrough
          { dest := tree, source := lit } &&
        (Edit.settle (remove ⟨"scout-1"⟩) tree).any (counts · 1) &&
        (Edit.settle (addForeign ⟨"lamp-2"⟩ ⟨"squad-1"⟩ none false)
          { dest := tree, source := lit }).any (counts ·.dest 3) &&
        (tree.nodes[(⟨"squad-1"⟩ : NodeHash)]?).any fun node =>
          decide (⟨"scout-1"⟩ ∈ node.children ∧ node.children.length = 2 ∧
            node.kind.primaryChild = some 7)) = true := by
    decide +kernel
  obtain ⟨tree, settled, passed⟩ := (Option.any_eq_true _ _).mp checked
  obtain ⟨lit, lampSettled, passed⟩ := (Option.any_eq_true _ _).mp passed
  simp only [Bool.and_eq_true, Edit.goesThrough_iff] at passed
  obtain ⟨⟨⟨⟨⟨scout, later, removed⟩, top, pair, transferred⟩, one⟩, three⟩,
    found⟩ := passed
  obtain ⟨node, registered, holds⟩ := (Option.any_eq_true _ _).mp found
  obtain ⟨member, two, designated⟩ := of_decide_eq_true holds
  obtain ⟨wellFormed, _⟩ := of_grown settled
  obtain ⟨litWellFormed, _⟩ := of_grown lampSettled
  have overshoots : node.kind.Overshoots node.children.length 7 :=
    ⟨designated, by rw [two]; decide⟩
  have outside : ¬ tree.Gone (some ⟨"scout-1"⟩) ⟨"squad-1"⟩ :=
    gone_some_iff.not.mpr (wellFormed.not_within_child
      ((wellFormed.mem_children_iff registered).mp member))
  obtain ⟨_, here, across⟩ := overshooting_keeps_distance wellFormed litWellFormed
  have removing := here.removing ⟨"scout-1"⟩
  have adding := across.adding ⟨"lamp-2"⟩ ⟨"squad-1"⟩ none false
  rw [removed] at removing
  rw [transferred] at adding
  obtain ⟨fewer, fewerFound, fewerKeeps⟩ := removing _ node registered outside
  obtain ⟨more, moreFound, moreKeeps⟩ :=
    adding.1 _ node registered (tree.not_gone_none _)
  rw [Edit.settle, removed] at one
  rw [Edit.settle, transferred] at three
  have fewerCount : fewer.children.length = 1 := by
    rw [← childrenOf_eq fewerFound]
    exact of_decide_eq_true one
  have moreCount : more.children.length = 3 := by
    rw [← childrenOf_eq moreFound]
    exact of_decide_eq_true three
  obtain ⟨six, stillBeyond, distance⟩ := fewerKeeps 7 overshoots
  obtain ⟨eight, againBeyond, further⟩ := moreKeeps 7 overshoots
  rw [two, fewerCount] at distance
  rw [two, moreCount] at further
  exact ⟨tree, lit, node, settled, lampSettled, registered, overshoots,
    ⟨scout, later, fewer, six, removed, fewerFound, fewerCount ▸ stillBeyond,
      Nat.add_right_cancel distance⟩,
    top, pair, more, eight, transferred, moreFound, moreCount ▸ againBeyond,
    Nat.add_right_cancel further⟩

/-- One who refuses, with the largest index as the designated one. -/
def refusal : Subtree :=
  { name := "pair", hash := some ⟨"pair-1"⟩
    kind := .parallel { primaryChild := some 18446744073709551615 }
    children :=
      [{ name := "no", hash := some ⟨"no-1"⟩, kind := .echoLeaf "no" false }] }

def assent : Subtree := { name := "yes", kind := .echoLeaf "yes" true }

/-- Nobody else comes in: there is no index for the one who is designated. -/
theorem assent_overflows :
    ∃ tree node after, camp.grown refusal = some tree ∧
      tree.nodes[(⟨"pair-1"⟩ : NodeHash)]? = some node ∧
      node.kind.Overshoots node.children.length 18446744073709551615 ∧
      add (.detached assent) ⟨"pair-1"⟩ none false tree =
        .error (.exhausted .indices) after := by
  have checked : (camp.grown refusal).any (fun tree =>
      (tree.nodes[(⟨"pair-1"⟩ : NodeHash)]?).any (fun node =>
        decide (node.kind.primaryChild = some 18446744073709551615 ∧
          node.children.length ≤ (18446744073709551615 : UInt64).toNat)) &&
      match add (.detached assent) ⟨"pair-1"⟩ none false tree with
      | .ok _ _ => false
      | .error failure _ => decide (failure = .exhausted .indices)) = true := by
    decide +kernel
  obtain ⟨tree, settled, passed⟩ := (Option.any_eq_true _ _).mp checked
  obtain ⟨found, overflows⟩ := (Bool.and_eq_true _ _).mp passed
  obtain ⟨node, registered, overshoots⟩ := (Option.any_eq_true _ _).mp found
  cases ended : add (.detached assent) ⟨"pair-1"⟩ none false tree with
  | ok top after =>
      rw [ended] at overflows
      cases overflows
  | error failure after =>
      rw [ended] at overflows
      obtain rfl := of_decide_eq_true overflows
      obtain ⟨largest, beyond⟩ := of_decide_eq_true overshoots
      exact ⟨tree, node, after, settled, registered, ⟨largest, beyond⟩, ended⟩

end Tree

end BehaviorTree
