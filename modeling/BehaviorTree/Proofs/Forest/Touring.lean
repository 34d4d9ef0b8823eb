import BehaviorTree.Proofs.Forest.Walking
import BehaviorTree.Proofs.Tree.Adding

/-!
# The order of a walk across Transitions

A walk across Transitions goes depth first: behind a node comes everything below it,
and behind a Transition everything of the tree to which it leads, unless that has
been entered before.  So every tree is walked in its own order, and its root comes
right behind the first Transition that leads there.
-/

namespace BehaviorTree

namespace Forest

/-- The tree that a selector is to name: the one with the id or, of all trees with
the name, the one with the lowest id. -/
def Names (forest : Forest) : TreeSelector → Tree → Prop
  | .byId id, tree => forest.get? id = some tree
  | .byName name, tree =>
    forest.get? tree.id = some tree ∧ tree.name = name ∧
      ∀ other : Tree, forest.get? other.id = some other → other.name = name →
        tree.id.value ≤ other.id.value

/-- The reference is to a Transition that leads to the tree with the id. -/
def Targets (forest : Forest) (ref : NodeRef) (id : TreeId) : Prop :=
  ∃ tree node selector target, forest.Located tree node ∧ tree.refTo node = ref ∧
    node.kind.transitionTarget = some selector ∧
    forest.select selector = some target ∧ target.id = id

/-- Going depth first through some nodes, one after the other: each comes before
what takes its place, and that before the nodes that are left. -/
inductive Tours (forest : Forest) :
    List TreeId → List NodeRef → List NodeRef → List TreeId → Prop where
  | finish {entered : List TreeId} : Tours forest entered [] [] entered
  | visit {entered after between final : List TreeId} {ref : NodeRef}
      {rest followers kept below others : List NodeRef} :
      forest.Expands entered ref followers after kept →
      Tours forest after kept below between →
      Tours forest between rest others final →
      Tours forest entered (ref :: rest) (ref :: (below ++ others)) final

/-- The nodes of a tree among others, in their order. -/
def hashesIn (id : TreeId) (refs : List NodeRef) : List NodeHash :=
  refs.filterMap fun ref => if ref.tree = id then some ref.hash else none

/-- The walk is the one across Transitions from the root of the tree. -/
structure Surveys (forest : Forest) (start : Tree) (walk : List NodeRef) : Prop where
  ends : ∀ more, forest.walkWithin (forest.nodeCount + more) [start.id]
    [⟨start.id, start.root⟩] = walk
  once : walk.Nodup
  meets : ∀ ref, ref ∈ walk ↔
    forest.Knows ref ∧ forest.Reaches start.id ref.tree
  depthFirst : ∃ final,
    forest.Tours [start.id] [⟨start.id, start.root⟩] walk final
  treewise : ∀ tree : Tree, forest.get? tree.id = some tree →
    forest.Reaches start.id tree.id →
    hashesIn tree.id walk = tree.descendants tree.root
  enters : ∀ tree : Tree, forest.get? tree.id = some tree →
    forest.Reaches start.id tree.id → tree.id ≠ start.id →
    ∃ before leaf after, walk = before ++ leaf :: ⟨tree.id, tree.root⟩ :: after ∧
      forest.Targets leaf tree.id ∧ ∀ ref ∈ before, ¬ forest.Targets ref tree.id

theorem mem_values_iff {forest : Forest} (wellFormed : forest.WellFormed)
    {tree : Tree} : tree ∈ forest.trees.values ↔ forest.get? tree.id = some tree := by
  rw [values_eq_map_toList, List.mem_map]
  constructor
  · rintro ⟨⟨id, _⟩, member, rfl⟩
    have registered : forest.get? id = some _ :=
      Std.ExtTreeMap.mem_toList_iff_getElem?_eq_some.mp member
    rwa [wellFormed.keyed registered]
  · intro registered
    exact ⟨(tree.id, tree),
      Std.ExtTreeMap.mem_toList_iff_getElem?_eq_some.mpr registered, rfl⟩

theorem values_ordered {forest : Forest} (wellFormed : forest.WellFormed) :
    forest.trees.values.Pairwise fun first second =>
      first.id.value < second.id.value := by
  rw [values_eq_map_toList, List.pairwise_map]
  refine Std.ExtTreeMap.ordered_keys_toList.imp_of_mem ?_
  intro first second firstMember secondMember ordered
  have keyed : ∀ entry ∈ forest.trees.toList, entry.2.id = entry.1 := by
    intro entry member
    exact wellFormed.keyed
      (Std.ExtTreeMap.mem_toList_iff_getElem?_eq_some.mp member)
  rw [keyed first firstMember, keyed second secondMember]
  exact Std.compare_eq_lt.mp ordered

theorem select_byName {forest : Forest} (wellFormed : forest.WellFormed)
    (name : String) : forest.select (.byName name) = forest.byName name := by
  rw [select, resolve]
  cases found : forest.byName name with
  | none => rfl
  | some tree =>
      exact (mem_values_iff wellFormed).mp (List.mem_of_find?_eq_some found)

/-- A name stands for the first of the trees that have it. -/
theorem names_of_byName {forest : Forest} (wellFormed : forest.WellFormed)
    {name : String} {tree : Tree} (found : forest.byName name = some tree) :
    forest.Names (.byName name) tree := by
  obtain ⟨named, before, after, listed, others⟩ :=
    List.find?_eq_some_iff_append.mp found
  have ordered := values_ordered wellFormed
  rw [listed, List.pairwise_append, List.pairwise_cons] at ordered
  refine ⟨(mem_values_iff wellFormed).mp (List.mem_of_find?_eq_some found),
    of_decide_eq_true named, fun other registered sameName => ?_⟩
  have member := (mem_values_iff wellFormed).mpr registered
  rw [listed, List.mem_append, List.mem_cons] at member
  rcases member with isBefore | rfl | isAfter
  · have differs := others other isBefore
    rw [decide_eq_true sameName] at differs
    cases differs
  · exact UInt64.le_refl _
  · exact UInt64.le_of_lt (ordered.2.1.1 other isAfter)

theorem select_eq_some_iff {forest : Forest} (wellFormed : forest.WellFormed)
    {selector : TreeSelector} {tree : Tree} :
    forest.select selector = some tree ↔ forest.Names selector tree := by
  cases selector with
  | byId id =>
      rw [select, resolve, Names, get?, Std.ExtTreeMap.contains_eq_isSome_getElem?]
      cases registered : forest.trees[id]? with
      | none => exact Iff.rfl
      | some found =>
          change forest.get? id = some tree ↔ _
          rw [get?, registered]
  | byName name =>
      rw [select_byName wellFormed]
      refine ⟨names_of_byName wellFormed, ?_⟩
      rintro ⟨registered, named, lowest⟩
      have member := (mem_values_iff wellFormed).mpr registered
      have present : (forest.byName name).isSome = true := by
        rw [byName, List.find?_isSome]
        exact ⟨tree, member, decide_eq_true named⟩
      obtain ⟨found, isFound⟩ := Option.isSome_iff_exists.mp present
      obtain ⟨foundRegistered, foundNamed, foundLowest⟩ :=
        names_of_byName wellFormed isFound
      have sameId : found.id = tree.id := congrArg TreeId.mk (UInt64.le_antisymm
        (foundLowest tree registered named) (lowest found foundRegistered foundNamed))
      rw [sameId, registered] at foundRegistered
      rw [foundRegistered]
      exact isFound

section HashesIn

variable (id : TreeId)

theorem hashesIn_append (first second : List NodeRef) :
    hashesIn id (first ++ second) = hashesIn id first ++ hashesIn id second :=
  List.filterMap_append

theorem hashesIn_cons_self (hash : NodeHash) (rest : List NodeRef) :
    hashesIn id (⟨id, hash⟩ :: rest) = hash :: hashesIn id rest := by
  rw [hashesIn, List.filterMap_cons, if_pos rfl]
  rfl

theorem hashesIn_cons_of_ne {id : TreeId} {ref : NodeRef} (elsewhere : ref.tree ≠ id)
    (rest : List NodeRef) : hashesIn id (ref :: rest) = hashesIn id rest := by
  rw [hashesIn, List.filterMap_cons, if_neg elsewhere]
  rfl

theorem hashesIn_eq_nil {id : TreeId} {refs : List NodeRef}
    (elsewhere : ∀ ref ∈ refs, ref.tree ≠ id) : hashesIn id refs = [] :=
  List.filterMap_eq_nil_iff.mpr fun ref member => if_neg (elsewhere ref member)

theorem hashesIn_map (hashes : List NodeHash) :
    hashesIn id (hashes.map fun hash => ⟨id, hash⟩) = hashes := by
  induction hashes with
  | nil => rfl
  | cons hash rest induction =>
      rw [List.map_cons, hashesIn_cons_self, induction]

end HashesIn

namespace Expands

variable {forest : Forest} {entered after : List TreeId} {head : NodeRef}
  {followers kept : List NodeRef}
  (expands : forest.Expands entered head followers after kept)
include expands

/-- What takes the place of a node, within a tree that has been entered. -/
theorem hashesIn_kept (wellFormed : forest.WellFormed) {tree : Tree}
    (registered : forest.get? tree.id = some tree) (visited : tree.id ∈ entered) :
    hashesIn tree.id kept =
      if head.tree = tree.id then tree.childrenOf head.hash else [] := by
  -- A Transition has no children.
  have childless : ∀ {other : Tree} {node : Node} {selector : TreeSelector},
      forest.Located other node → other.refTo node = head →
      node.kind.transitionTarget = some selector → head.tree = tree.id →
      tree.childrenOf head.hash = [] := by
    rintro other node selector located rfl jumps sameId
    have inForest := located.inForest
    have sameId : other.id = tree.id := sameId
    rw [sameId, registered] at inForest
    obtain rfl := Option.some.inj inForest
    refine (Tree.childrenOf_eq located.inTree).trans ?_
    refine List.eq_nil_iff_forall_not_mem.mpr fun child member => ?_
    rw [transitionTarget_of_child wellFormed located member] at jumps
    cases jumps
  cases expands with
  | @children other node located isHead plain =>
      subst isHead
      by_cases sameId : (other.refTo node).tree = tree.id
      · have isTree : other = tree := by
          have inForest := located.inForest
          rw [show other.id = tree.id from sameId, registered] at inForest
          exact (Option.some.inj inForest).symm
        subst isTree
        rw [if_pos sameId, hashesIn_map]
        exact (Tree.childrenOf_eq located.inTree).symm
      · rw [if_neg sameId]
        refine hashesIn_eq_nil fun ref member => ?_
        obtain ⟨child, _, rfl⟩ := List.mem_map.mp member
        exact sameId
  | @enter other target node selector located isHead jumps selected isNew =>
      have different : target.id ≠ tree.id := fun sameId => isNew (sameId ▸ visited)
      have nothing : hashesIn tree.id [target.refTo target.rootNode] = [] :=
        hashesIn_cons_of_ne different []
      rw [nothing]
      split
      · next sameId => exact (childless located isHead jumps sameId).symm
      · rfl
  | skip located isHead jumps =>
      split
      · next sameId => exact (childless located isHead jumps sameId).symm
      · rfl
  | unresolved located isHead jumps =>
      split
      · next sameId => exact (childless located isHead jumps sameId).symm
      · rfl

/-- A Transition to a tree that has not been entered enters it. -/
theorem enters_target (wellFormed : forest.WellFormed) {tree : Tree}
    (registered : forest.get? tree.id = some tree) (unvisited : tree.id ∉ entered)
    (targets : forest.Targets head tree.id) :
    after = tree.id :: entered ∧ kept = [⟨tree.id, tree.root⟩] := by
  obtain ⟨source, node, selector, target, located, isHead, jumps, selected, sameId⟩ :=
    targets
  have isTree : target = tree := by
    have inForest := (wellFormed.located_target selected).inForest
    rw [sameId, registered] at inForest
    exact (Option.some.inj inForest).symm
  subst isTree
  cases expands with
  | children located' isHead' plain =>
      obtain ⟨rfl, rfl⟩ := located.eq_of_ref located' (isHead.trans isHead'.symm)
      rw [jumps] at plain
      cases plain
  | enter located' isHead' jumps' selected' isNew =>
      obtain ⟨rfl, rfl⟩ := located.eq_of_ref located' (isHead.trans isHead'.symm)
      obtain rfl := Option.some.inj (jumps.symm.trans jumps')
      obtain rfl := Option.some.inj (selected.symm.trans selected')
      refine ⟨rfl, ?_⟩
      rw [Tree.refTo, wellFormed.hash_rootNode registered]
  | skip located' isHead' jumps' selected' visited =>
      obtain ⟨rfl, rfl⟩ := located.eq_of_ref located' (isHead.trans isHead'.symm)
      obtain rfl := Option.some.inj (jumps.symm.trans jumps')
      obtain rfl := Option.some.inj (selected.symm.trans selected')
      exact absurd visited unvisited
  | unresolved located' isHead' jumps' selected' =>
      obtain ⟨rfl, rfl⟩ := located.eq_of_ref located' (isHead.trans isHead'.symm)
      obtain rfl := Option.some.inj (jumps.symm.trans jumps')
      rw [selected] at selected'
      cases selected'

theorem unvisited_after {id : TreeId} (unvisited : id ∉ entered)
    (notTargets : ¬ forest.Targets head id) : id ∉ after := by
  cases expands with
  | enter located isHead jumps selected isNew =>
      rw [List.mem_cons, not_or]
      refine ⟨fun sameId => notTargets ?_, unvisited⟩
      exact ⟨_, _, _, _, located, isHead, jumps, selected, sameId.symm⟩
  | _ => exact unvisited

end Expands

section Walks

variable {forest : Forest} (wellFormed : forest.WellFormed) {fuel : Nat}
  {entered : List TreeId} {stack : List NodeRef}
include wellFormed

omit wellFormed in
/-- More fuel does not change a walk that did not use up its fuel. -/
theorem walkWithin_stable {more : Nat}
    (finished : (forest.walkWithin fuel entered stack).length < fuel)
    (enough : fuel ≤ more) :
    forest.walkWithin more entered stack = forest.walkWithin fuel entered stack := by
  induction fuel generalizing more entered stack with
  | zero => cases finished
  | succ fuel induction =>
      obtain ⟨more, rfl⟩ := Nat.exists_eq_add_one_of_ne_zero
        (Nat.ne_zero_of_lt enough)
      cases stack with
      | nil => rw [walkWithin_nil, walkWithin_nil]
      | cons head rest =>
          rw [walkWithin_cons, List.length_cons] at finished
          rw [walkWithin_cons, walkWithin_cons,
            induction (Nat.lt_of_succ_lt_succ finished)
              (Nat.le_of_succ_le_succ enough)]

/-- Of a tree that has been entered, a walk meets what a walk of that tree does. -/
theorem hashesIn_walkWithin (pending : forest.Pending entered stack) {tree : Tree}
    (registered : forest.get? tree.id = some tree) (visited : tree.id ∈ entered)
    (finished : (forest.walkWithin fuel entered stack).length < fuel) {steps : Nat}
    (enough : fuel ≤ steps) :
    hashesIn tree.id (forest.walkWithin fuel entered stack) =
      tree.walkWithin steps (hashesIn tree.id stack) := by
  induction fuel generalizing entered stack steps with
  | zero => cases finished
  | succ fuel induction =>
      obtain ⟨steps, rfl⟩ := Nat.exists_eq_add_one_of_ne_zero
        (Nat.ne_zero_of_lt enough)
      cases stack with
      | nil =>
          rw [walkWithin_nil, hashesIn, List.filterMap_nil, Tree.walkWithin_nil]
      | cons head rest =>
          have expands := wellFormed.expands (pending.known head List.mem_cons_self)
            entered
          rw [walkWithin_cons, List.length_cons] at finished
          have later {more : Nat} (enough : fuel ≤ more) :=
            induction (pending.expand wellFormed expands)
              (expands.entered_subset visited) (Nat.lt_of_succ_lt_succ finished)
              enough
          rw [hashesIn_append, expands.hashesIn_kept wellFormed registered visited]
            at later
          rw [walkWithin_cons]
          by_cases here : head.tree = tree.id
          · obtain ⟨id, hash⟩ := head
            obtain rfl : id = tree.id := here
            rw [hashesIn_cons_self, hashesIn_cons_self, Tree.walkWithin,
              later (Nat.le_of_succ_le_succ enough), if_pos rfl]
          · rw [hashesIn_cons_of_ne here, hashesIn_cons_of_ne here,
              later (Nat.le_of_succ_le enough), if_neg here, List.nil_append]

/-- The root of a tree that has not been entered comes right behind the first
Transition to the tree, and the nodes of the tree come in their order. -/
theorem walkWithin_enters (pending : forest.Pending entered stack) {tree : Tree}
    (registered : forest.get? tree.id = some tree) (unvisited : tree.id ∉ entered)
    (finished : (forest.walkWithin fuel entered stack).length < fuel)
    (met : ⟨tree.id, tree.root⟩ ∈ forest.walkWithin fuel entered stack) :
    hashesIn tree.id (forest.walkWithin fuel entered stack) =
      tree.descendants tree.root ∧
    ∃ before leaf after, forest.walkWithin fuel entered stack =
        before ++ leaf :: ⟨tree.id, tree.root⟩ :: after ∧
      forest.Targets leaf tree.id ∧ ∀ ref ∈ before, ¬ forest.Targets ref tree.id := by
  induction fuel generalizing entered stack with
  | zero => cases finished
  | succ fuel induction =>
      cases stack with
      | nil => cases met
      | cons head rest =>
          have expands := wellFormed.expands (pending.known head List.mem_cons_self)
            entered
          have remaining := pending.expand wellFormed expands
          have elsewhere : ∀ ref ∈ head :: rest, ref.tree ≠ tree.id :=
            fun ref member sameId => unvisited (sameId ▸ pending.entered ref member)
          have headElsewhere := elsewhere head List.mem_cons_self
          rw [walkWithin_cons, List.length_cons] at finished
          have finished := Nat.lt_of_succ_lt_succ finished
          rw [walkWithin_cons] at met ⊢
          rw [hashesIn_cons_of_ne headElsewhere]
          by_cases targets : forest.Targets head tree.id
          · obtain ⟨isAfter, isKept⟩ :=
              expands.enters_target wellFormed registered unvisited targets
            rw [isAfter, isKept] at finished remaining ⊢
            obtain ⟨fuel, rfl⟩ := Nat.exists_eq_add_one_of_ne_zero
              (Nat.ne_zero_of_lt finished)
            refine ⟨?_, [], head, _, by rw [List.singleton_append, walkWithin_cons]; rfl,
              targets, nofun⟩
            rw [hashesIn_walkWithin wellFormed remaining registered
              List.mem_cons_self finished
              (Nat.le_add_right (fuel + 1) (tree.nodes.size + 1)),
              List.singleton_append, hashesIn_cons_self,
              hashesIn_eq_nil fun ref member =>
                elsewhere ref (List.mem_cons_of_mem _ member)]
            exact (wellFormed.trees registered).walkWithin_root
              (Nat.lt_of_lt_of_le (Nat.lt_succ_self _) (Nat.le_add_left _ _))
          · have metLater := (List.mem_cons.mp met).resolve_left
              fun same => headElsewhere (congrArg NodeRef.tree same).symm
            obtain ⟨ordered, before, leaf, after, split, isLeaf, first⟩ :=
              induction remaining (expands.unvisited_after unvisited targets) finished
                metLater
            refine ⟨ordered, head :: before, leaf, after, ?_, isLeaf, ?_⟩
            · rw [split, List.cons_append]
            · intro ref member
              rcases List.mem_cons.mp member with rfl | member
              · exact targets
              · exact first ref member

/-- A walk goes through the first nodes of its stack before the others. -/
theorem tours_append {first second : List NodeRef}
    (known : ∀ ref ∈ first ++ second, forest.Knows ref)
    (finished : (forest.walkWithin fuel entered (first ++ second)).length < fuel) :
    ∃ walk between remaining,
      forest.walkWithin fuel entered (first ++ second) =
        walk ++ forest.walkWithin remaining between second ∧
      forest.Tours entered first walk between ∧ remaining ≤ fuel ∧
      (forest.walkWithin remaining between second).length < remaining := by
  induction fuel using Nat.strongRecOn generalizing entered first second with
  | ind fuel induction =>
      cases first with
      | nil => exact ⟨[], entered, fuel, rfl, .finish, Nat.le_refl _, finished⟩
      | cons head rest =>
          obtain ⟨fuel, rfl⟩ := Nat.exists_eq_add_one_of_ne_zero
            (Nat.ne_zero_of_lt finished)
          have expands := wellFormed.expands (known head List.mem_cons_self) entered
          have restKnown : ∀ ref ∈ rest ++ second, forest.Knows ref :=
            fun ref member => known ref (List.mem_cons_of_mem _ member)
          rw [List.cons_append, walkWithin_cons, List.length_cons] at finished
          obtain ⟨below, between, remaining, split, belowTours, fewer, later⟩ :=
            induction fuel (Nat.lt_succ_self _)
              (fun ref member => (List.mem_append.mp member).elim
                (wellFormed.known_kept expands ref) (restKnown ref))
              (Nat.lt_of_succ_lt_succ finished)
          obtain ⟨others, final, least, rests, othersTour, fewest, latest⟩ :=
            induction remaining (Nat.lt_succ_of_le fewer) restKnown later
          refine ⟨head :: (below ++ others), final, least, ?_,
            .visit expands belowTours othersTour,
            Nat.le_succ_of_le (Nat.le_trans fewest fewer), latest⟩
          rw [List.cons_append, walkWithin_cons, split, rests, List.cons_append,
            List.append_assoc]

theorem tours_of_finished (known : ∀ ref ∈ stack, forest.Knows ref)
    (finished : (forest.walkWithin fuel entered stack).length < fuel) :
    ∃ final, forest.Tours entered stack (forest.walkWithin fuel entered stack)
      final := by
  rw [← List.append_nil stack] at known finished
  obtain ⟨walk, final, remaining, split, tours, _⟩ :=
    tours_append wellFormed known finished
  rw [List.append_nil, walkWithin_nil, List.append_nil] at split
  rw [split]
  exact ⟨final, tours⟩

end Walks

theorem WellFormed.surveys {forest : Forest} (wellFormed : forest.WellFormed)
    {start : Tree} (registered : forest.get? start.id = some start) :
    forest.Surveys start (forest.walkFollowing start.id) := by
  have pending := pending_root wellFormed registered
  obtain ⟨same, finished⟩ := walkFollowing_eq wellFormed registered
  have refRoot : ∀ {tree : Tree}, forest.get? tree.id = some tree →
      tree.refTo tree.rootNode = ⟨tree.id, tree.root⟩ := by
    intro tree isTree
    rw [Tree.refTo, wellFormed.hash_rootNode isTree]
  rw [refRoot registered] at pending same
  have ends : ∀ more, forest.walkWithin (forest.nodeCount + more) [start.id]
      [⟨start.id, start.root⟩] = forest.walkFollowing start.id := by
    intro more
    cases more with
    | zero =>
        rw [walkFollowing, registered]
        rfl
    | succ more =>
        rw [same] at finished ⊢
        exact walkWithin_stable finished
          (Nat.add_le_add_left (Nat.succ_le_succ (Nat.zero_le more)) _)
  have entering : ∀ tree : Tree, forest.get? tree.id = some tree →
      forest.Reaches start.id tree.id → tree.id ≠ start.id →
      hashesIn tree.id (forest.walkFollowing start.id) =
        tree.descendants tree.root ∧
      ∃ before leaf after, forest.walkFollowing start.id =
          before ++ leaf :: ⟨tree.id, tree.root⟩ :: after ∧
        forest.Targets leaf tree.id ∧
        ∀ ref ∈ before, ¬ forest.Targets ref tree.id := by
    intro tree isTree reaches elsewhere
    have met := (mem_walkFollowing wellFormed registered).mpr
      ⟨⟨tree, tree.rootNode, wellFormed.located_root isTree, refRoot isTree⟩, reaches⟩
    rw [same] at finished met ⊢
    exact walkWithin_enters wellFormed pending isTree
      (fun visited => elsewhere (List.mem_singleton.mp visited)) finished met
  refine
    { ends
      once := walkFollowing_nodup wellFormed registered
      meets := fun ref => mem_walkFollowing wellFormed registered
      depthFirst := ?_
      treewise := ?_
      enters := fun tree isTree reaches elsewhere =>
        (entering tree isTree reaches elsewhere).2 }
  · rw [same] at finished ⊢
    exact tours_of_finished wellFormed pending.known finished
  · intro tree isTree reaches
    by_cases here : tree.id = start.id
    · rw [here, registered] at isTree
      obtain rfl := Option.some.inj isTree
      rw [same] at finished ⊢
      rw [hashesIn_walkWithin wellFormed pending registered List.mem_cons_self finished
        (Nat.le_add_right _ (start.nodes.size + 1)), hashesIn_cons_self]
      exact (wellFormed.trees registered).walkWithin_root
        (Nat.lt_of_lt_of_le (Nat.lt_succ_self _) (Nat.le_add_left _ _))
    · exact (entering tree isTree reaches here).1

/-- The walk across Transitions from a tree is exact, whatever the Transitions. -/
theorem walkFollowing_exact {forest : Forest} (wellFormed : forest.WellFormed) :
    (∀ selector tree, forest.select selector = some tree ↔
      forest.Names selector tree) ∧
      ∀ start : Tree, forest.get? start.id = some start →
        forest.Surveys start (forest.walkFollowing start.id) :=
  ⟨fun _ _ => select_eq_some_iff wellFormed,
    fun _ registered => wellFormed.surveys registered⟩

/-- Two ways to the outpost. -/
def route : Subtree :=
  { name := "route", kind := .sequence
    children :=
      [{ name := "there", kind := .transition (some (.byName "outpost")) },
       { name := "again", kind := .transition (some (.byId ⟨2⟩)) }] }

/-- A way back to the camp. -/
def retreat : Subtree :=
  { name := "retreat", kind := .transition (some (.byName "camp")) }

/-- The outpost is visited on the way there, though it leads back to the camp, and not
its double. -/
theorem outpost_surveyed :
    ∃ tree lit, Tree.camp.grown route = some tree ∧
      Tree.outpost.grown retreat = some lit ∧
      let forest := ofTrees [.build ⟨3⟩ "outpost" {}, lit, tree]
      forest.WellFormed ∧ forest.Names (.byName "outpost") lit ∧
      forest.Surveys tree (forest.walkFollowing tree.id) ∧
      ∃ before leaf after, forest.walkFollowing tree.id =
          before ++ leaf :: ⟨lit.id, lit.root⟩ :: after ∧
        forest.Targets leaf lit.id := by
  have checked :
      (Tree.camp.grown route).any (fun tree => (Tree.outpost.grown retreat).any
        fun lit =>
          let forest := ofTrees [.build ⟨3⟩ "outpost" {}, lit, tree]
          decide (tree.id = ⟨1⟩ ∧ lit.id = ⟨2⟩ ∧
            forest.resolve (.byName "outpost") = some ⟨2⟩ ∧
            ⟨lit.id, lit.root⟩ ∈ forest.walkFollowing tree.id)) = true := by
    decide +kernel
  obtain ⟨tree, settled, passed⟩ := (Option.any_eq_true _ _).mp checked
  obtain ⟨lit, litSettled, passed⟩ := (Option.any_eq_true _ _).mp passed
  obtain ⟨treeId, litId, resolved, met⟩ := of_decide_eq_true passed
  let forest := ofTrees [.build ⟨3⟩ "outpost" {}, lit, tree]
  have wellFormed : forest.WellFormed := by
    refine .ofTrees fun other member => ?_
    simp only [List.mem_cons, List.not_mem_nil, or_false] at member
    rcases member with rfl | rfl | rfl
    · exact .build _ _ _
    · exact (Tree.of_grown litSettled).1
    · exact (Tree.of_grown settled).1
  have registered : forest.get? tree.id = some tree :=
    (get?_insert _ tree tree.id).trans (if_pos rfl)
  have litRegistered : forest.get? lit.id = some lit := by
    refine (get?_insert _ tree lit.id).trans ?_
    rw [if_neg (by rw [litId, treeId]; decide)]
    exact (get?_insert _ lit lit.id).trans (if_pos rfl)
  have selected : forest.select (.byName "outpost") = some lit := by
    rw [select, resolved, Option.bind_some, ← litId, litRegistered]
  obtain ⟨names, surveys⟩ := walkFollowing_exact wellFormed
  have survey := surveys tree registered
  have reaches := ((survey.meets ⟨lit.id, lit.root⟩).mp met).2
  obtain ⟨before, leaf, after, split, targets, _⟩ :=
    survey.enters lit litRegistered reaches (by rw [litId, treeId]; decide)
  exact ⟨tree, lit, settled, litSettled, wellFormed, (names _ _).mp selected, survey,
    before, leaf, after, split, targets⟩

end Forest

end BehaviorTree
