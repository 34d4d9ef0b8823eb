import BehaviorTree.Proofs.Forest.Edit
import BehaviorTree.Proofs.Pass.Running
import BehaviorTree.Proofs.Tree.Scoping

/-!
# Histories of a forest

A woodland is a forest together with the source of tree ids and the ids given
out so far.  Its history is any sequence of trees built in the forest or outside
of it, removals, and edits of one tree or across two.  All forests of a history
are well-formed, and each hash is in the scope of the one tree that registers
it.  So two nodes of such a forest never have the same hash, and the states of
one blackboard, which know hashes only, keep all nodes apart.
-/

namespace BehaviorTree

theorem Tree.WellFormed.describe {tree : Tree} (wellFormed : tree.WellFormed)
    (name : String) (agentKind : Option String) :
    WellFormed { tree with name, agentKind } where
  keyed := wellFormed.keyed
  rootRegistered := wellFormed.rootRegistered
  rootUnique := wellFormed.rootUnique
  listed := wellFormed.listed
  linked := wellFormed.linked
  rooted registered :=
    (wellFormed.rooted registered).transport fun _ _ _ _ => rfl
  fitting := wellFormed.fitting

namespace Forest

/-- Every tree is registered under its own id, which is one of the given ones
and to which its hashes are scoped. -/
structure Labelled (given : List TreeId) (forest : Forest) : Prop where
  listed : ∀ {id : TreeId} {tree : Tree},
    forest.get? id = some tree → id ∈ given
  trees : ∀ {id : TreeId} {tree : Tree},
    forest.get? id = some tree → tree.ScopedTo id

theorem get?_erase (forest : Forest) (id other : TreeId) :
    (forest.erase id).get? other =
      if other = id then none else forest.get? other := by
  simp only [erase, get?, Std.ExtTreeMap.getElem?_erase,
    Std.LawfulEqCmp.compare_eq_iff_eq]
  by_cases same : id = other
  · simp [same]
  · simp [same, Ne.symm same]

theorem WellFormed.erase {forest : Forest} (wellFormed : forest.WellFormed)
    (id : TreeId) : (forest.erase id).WellFormed := by
  constructor
  · intro other tree registered
    rw [get?_erase] at registered
    split_ifs at registered
    exact wellFormed.keyed registered
  · intro other tree registered
    rw [get?_erase] at registered
    split_ifs at registered
    exact wellFormed.trees registered

namespace Labelled

variable {given : List TreeId} {forest : Forest}
  (labelled : forest.Labelled given)
include labelled

theorem cons (id : TreeId) : forest.Labelled (id :: given) where
  listed registered := List.mem_cons_of_mem id (labelled.listed registered)
  trees := labelled.trees

theorem insert {id : TreeId} (member : id ∈ given) {tree : Tree}
    (scopedTo : tree.ScopedTo id) : (forest.insert tree).Labelled given := by
  constructor
  · intro other found registered
    rw [get?_insert, scopedTo.own] at registered
    split_ifs at registered with same
    · exact same ▸ member
    · exact labelled.listed registered
  · intro other found registered
    rw [get?_insert, scopedTo.own] at registered
    split_ifs at registered with same
    · rw [← Option.some.inj registered, same]
      exact scopedTo
    · exact labelled.trees registered

theorem erase (id : TreeId) : (forest.erase id).Labelled given := by
  constructor
  · intro other found registered
    rw [get?_erase] at registered
    split_ifs at registered
    exact labelled.listed registered
  · intro other found registered
    rw [get?_erase] at registered
    split_ifs at registered
    exact labelled.trees registered

theorem isScoped : forest.Scoped :=
  fun _ _ _ registered contained => (labelled.trees registered).keys contained

theorem eq_of_contains {first second : TreeId} {firstTree secondTree : Tree}
    {hash : NodeHash} (firstRegistered : forest.get? first = some firstTree)
    (secondRegistered : forest.get? second = some secondTree)
    (inFirst : firstTree.contains hash = true)
    (inSecond : secondTree.contains hash = true) : first = second :=
  NodeHash.scope_unique ((labelled.trees firstRegistered).keys inFirst)
    ((labelled.trees secondRegistered).keys inSecond)

theorem hash_of_node? {ref : NodeRef} {node : Node}
    (found : forest.node? ref = some node) : node.hash = ref.hash := by
  obtain ⟨tree, registered, inTree⟩ := Option.bind_eq_some_iff.mp found
  exact (labelled.trees registered).keyed inTree

/-- Nodes at different places have different hashes. -/
theorem hash_ne_of_ne {first second : NodeRef} {firstNode secondNode : Node}
    (firstFound : forest.node? first = some firstNode)
    (secondFound : forest.node? second = some secondNode)
    (different : first ≠ second) : firstNode.hash ≠ secondNode.hash := by
  intro same
  rw [labelled.hash_of_node? firstFound,
    labelled.hash_of_node? secondFound] at same
  apply different
  obtain ⟨firstTree, firstRegistered, inFirst⟩ :=
    Option.bind_eq_some_iff.mp firstFound
  obtain ⟨secondTree, secondRegistered, inSecond⟩ :=
    Option.bind_eq_some_iff.mp secondFound
  have containedFirst : firstTree.contains first.hash = true := by
    simp [Tree.contains_eq_isSome, inFirst]
  have containedSecond : secondTree.contains first.hash = true := by
    simp [Tree.contains_eq_isSome, same, inSecond]
  have sameTree : first.tree = second.tree :=
    labelled.eq_of_contains firstRegistered secondRegistered containedFirst
      containedSecond
  cases first
  cases second
  congr

end Labelled

variable {β : Type} {post : β → Prop} {given : List TreeId}

theorem editTree_keeps {edit : Edit Tree β} (id : TreeId)
    (keeps : Edit.Keeps (Tree.ScopedTo id) post edit) :
    Edit.Keeps (Labelled given) post (editTree id edit) := by
  unfold editTree
  refine Edit.Keeps.get.bind fun forest labelled => ?_
  cases registered : forest.get? id with
  | none => exact .refuse _
  | some tree =>
      have member := labelled.listed registered
      exact keeps.zoom (fun _ _ => labelled.trees registered)
        fun _ _ current scopedTo => current.insert member scopedTo

variable {edit : Edit TreePair β} {dest source : TreeId}
  (keeps : Edit.Keeps (TreePair.ScopedTo dest source) post edit)
include keeps

theorem editPair_keeps {forest : Forest} (labelled : forest.Labelled given)
    {found : Except TopologyError TreePair}
    (registered : ∀ pair, found = .ok pair →
      forest.get? dest = some pair.dest ∧
        forest.get? source = some pair.source) :
    Edit.Keeps (Labelled given) post (editPair found edit) := by
  unfold editPair
  refine (Edit.Keeps.require found).bind fun pair isPair => ?_
  obtain ⟨destFound, sourceFound⟩ := registered pair isPair
  apply keeps.zoom
  · intro _ _
    exact ⟨labelled.trees destFound, labelled.trees sourceFound⟩
  · intro _ _ current inner
    exact (current.insert (labelled.listed destFound) inner.dest).insert
      (labelled.listed sourceFound) inner.source

theorem pair_keeps :
    Edit.Keeps (Labelled given) post
      (do editPair ((← get).pair dest source) edit) := by
  refine Edit.Keeps.get.bind fun forest labelled => ?_
  exact editPair_keeps keeps labelled fun _ => WellFormed.of_pair

theorem transferPair_keeps :
    Edit.Keeps (Labelled given) post
      (do editPair ((← get).transferPair source dest) edit) := by
  refine Edit.Keeps.get.bind fun forest labelled => ?_
  exact editPair_keeps keeps labelled fun _ found =>
    (WellFormed.of_transferPair found)

end Forest

theorem ForestEdit.run_keeps (given : List TreeId) (edit : ForestEdit) :
    Edit.Keeps (Forest.Labelled given) (fun _ => True) edit.run := by
  cases edit with
  | add source hash dest target position copying =>
      apply Edit.Keeps.discard
      apply Edit.Keeps.ite
      · exact Forest.editTree_keeps dest
          (Tree.add_keeps _ target position copying)
      · exact Forest.transferPair_keeps
          (TreePair.addForeign_keeps hash target position copying)
  | interpose source hash dest target position copying =>
      apply Edit.Keeps.discard
      apply Edit.Keeps.ite
      · exact Forest.editTree_keeps dest
          (Tree.interpose_keeps _ target position copying)
      · exact Forest.transferPair_keeps
          (TreePair.interposeForeign_keeps hash target position copying)
  | swap firstTree first secondTree second =>
      apply Edit.Keeps.discard
      apply Edit.Keeps.ite
      · exact (Forest.editTree_keeps firstTree
          (Tree.swap_keeps first second)).andThen fun _ => .pure trivial
      · exact Forest.pair_keeps (TreePair.swapForeign_keeps first second)

/-- What a tree is built from; the id is the next one unless it is chosen. -/
structure Seedling where
  name : String
  hashing : HashConfig := {}
  chosen : Option TreeId := none

/-- A forest and the ids of trees. -/
structure Woodland where
  forest : Forest := {}
  ids : TreeIds := {}
  /-- The ids of the trees built so far, the latest first. -/
  given : List TreeId := []

namespace Woodland

/-- The tree of a seedling and the ids that are left. -/
def grow (woodland : Woodland) (seedling : Seedling) : Tree × TreeIds :=
  match seedling.chosen with
  | none => Tree.create woodland.ids seedling.name seedling.hashing
  | some id => Tree.createAs woodland.ids id seedling.name seedling.hashing

/-- The woodland after the tree of a seedling was built. -/
def build (woodland : Woodland) (seedling : Seedling) : Woodland :=
  let grown := woodland.grow seedling
  { woodland with ids := grown.2, given := grown.1.id :: woodland.given }

def insert (woodland : Woodland) (tree : Tree) : Woodland :=
  { woodland with forest := woodland.forest.insert tree }

/-- One step of a history.  A tree that is built is kept outside of the forest
or planted in it. -/
inductive Step where
  | build (seedling : Seedling)
  | plant (seedling : Seedling)
  | create (name : String) (hashing : HashConfig)
  | erase (id : TreeId)
  | describe (id : TreeId) (name : String) (agentKind : Option String)
  | edit (id : TreeId) (edit : TreeEdit)
  | transfer (dest source : TreeId) (edit : TransferEdit)
  | across (edit : ForestEdit)

/-- The woodland with what an edit leaves of its forest; none if the hashes of a
tree ran out. -/
def settle (woodland : Woodland) (edit : Edit Forest Unit) : Option Woodland :=
  (Edit.settle edit woodland.forest).map fun forest => { woodland with forest }

/-- The woodland after a step; none if the hashes of a tree ran out. -/
def step (woodland : Woodland) : Step → Option Woodland
  | .build seedling => some (woodland.build seedling)
  | .plant seedling =>
    some ((woodland.build seedling).insert (woodland.grow seedling).1)
  | .create name hashing =>
    let (id, forest, ids) := woodland.forest.create woodland.ids name hashing
    some { forest, ids, given := id :: woodland.given }
  | .erase id => some { woodland with forest := woodland.forest.erase id }
  | .describe id name agentKind =>
    match woodland.forest.get? id with
    | none => some woodland
    | some tree => some (woodland.insert { tree with name, agentKind })
  | .edit id edit => woodland.settle (Forest.editTree id edit.run)
  | .transfer dest source edit =>
    woodland.settle do Forest.editPair ((← get).pair dest source) edit.run
  | .across edit => woodland.settle edit.run

/-- The woodland that a sequence of steps leads to. -/
def run (woodland : Woodland) : List Step → Option Woodland
  | [] => some woodland
  | first :: rest => (woodland.step first).bind (run · rest)

/-- The trees of the forest are well-formed, and labelled by given ids. -/
structure Sound (woodland : Woodland) : Prop where
  wellFormed : woodland.forest.WellFormed
  labelled : woodland.forest.Labelled woodland.given

theorem exists_grow_eq (woodland : Woodland) (seedling : Seedling) :
    ∃ id, (woodland.grow seedling).1 =
      Tree.build id seedling.name seedling.hashing := by
  unfold grow
  cases seedling.chosen with
  | none => exact ⟨_, rfl⟩
  | some id => exact ⟨id, rfl⟩

theorem sound_empty : Sound {} := by
  have bare (id : TreeId) : ({} : Forest).get? id = none :=
    Std.ExtTreeMap.getElem?_empty
  exact
    { wellFormed :=
        { keyed := by simp [bare], trees := by simp [bare] }
      labelled := { listed := by simp [bare], trees := by simp [bare] } }

namespace Sound

variable {woodland after : Woodland} (sound : woodland.Sound)
include sound

theorem build (seedling : Seedling) : (woodland.build seedling).Sound :=
  ⟨sound.wellFormed, sound.labelled.cons _⟩

theorem insert {id : TreeId} (member : id ∈ woodland.given) {tree : Tree}
    (wellFormed : tree.WellFormed) (scopedTo : tree.ScopedTo id) :
    (woodland.insert tree).Sound :=
  ⟨sound.wellFormed.insert wellFormed, sound.labelled.insert member scopedTo⟩

theorem settle {edit : Edit Forest Unit}
    (upholds : Edit.Upholds woodland.forest (fun _ after => after.WellFormed)
      (edit woodland.forest))
    (keeps : Edit.Keeps (Forest.Labelled woodland.given) (fun _ => True) edit)
    (settled : woodland.settle edit = some after) : after.Sound := by
  obtain ⟨forest, left, rfl⟩ := Option.map_eq_some_iff.mp settled
  exact ⟨upholds.of_settle sound.wellFormed left,
    keeps.of_settle sound.labelled left⟩

theorem step {action : Step} (stepped : woodland.step action = some after) :
    after.Sound := by
  have wellFormed := sound.wellFormed
  cases action with
  | build seedling =>
      rw [Woodland.step, Option.some.injEq] at stepped
      exact stepped ▸ sound.build seedling
  | plant seedling =>
      rw [Woodland.step, Option.some.injEq] at stepped
      obtain ⟨id, isBuilt⟩ := woodland.exists_grow_eq seedling
      have member : id ∈ (woodland.build seedling).given := by
        simp [Woodland.build, isBuilt, Tree.build]
      rw [← stepped, isBuilt]
      exact (sound.build seedling).insert member (.build id _ _) (.build id _ _)
  | create name hashing =>
      cases stepped
      exact ⟨wellFormed.insert (.build _ _ _),
        (sound.labelled.cons _).insert List.mem_cons_self (.build _ _ _)⟩
  | erase id =>
      cases stepped
      exact ⟨wellFormed.erase id, sound.labelled.erase id⟩
  | describe id name agentKind =>
      rw [Woodland.step] at stepped
      cases registered : woodland.forest.get? id with
      | none =>
          rw [registered] at stepped
          exact Option.some.inj stepped ▸ sound
      | some tree =>
          rw [registered] at stepped
          rw [← Option.some.inj stepped]
          exact sound.insert (sound.labelled.listed registered)
            ((wellFormed.trees registered).describe name agentKind)
            ((sound.labelled.trees registered).describe name agentKind)
  | edit id edit =>
      exact sound.settle
        (wellFormed.editTree_upholds (fun tree => edit.run_upholds tree) id)
        (Forest.editTree_keeps id (edit.run_keeps id)) stepped
  | transfer dest source edit =>
      refine sound.settle (.after_get ?_)
        (Forest.pair_keeps (edit.run_keeps dest source)) stepped
      refine wellFormed.editPair_upholds (fun pair => edit.run_upholds pair) ?_
      intro pair found
      obtain ⟨destFound, sourceFound⟩ := Forest.WellFormed.of_pair found
      exact ⟨⟨dest, destFound⟩, source, sourceFound⟩
  | across edit =>
      exact sound.settle (wellFormed.edit_upholds edit) (edit.run_keeps _)
        stepped

theorem run {steps : List Step} (ran : woodland.run steps = some after) :
    after.Sound := by
  induction steps generalizing woodland with
  | nil => exact Option.some.inj ran ▸ sound
  | cons first rest induction =>
      obtain ⟨middle, stepped, ran⟩ := Option.bind_eq_some_iff.mp ran
      exact induction (sound.step stepped) ran

end Sound

theorem sound_of_run {steps : List Step} {woodland : Woodland}
    (ran : run {} steps = some woodland) : woodland.Sound :=
  sound_empty.run ran

/-- Whatever happened to a forest, the text of each hash ends in the id of the
tree that registers it; two trees have no hash in common; and a write to the
state of one node leaves the states of all others on the blackboard alone. -/
theorem hashes_of_run {steps : List Step} {woodland : Woodland}
    (ran : run {} steps = some woodland) :
    (∀ (id : TreeId) (tree : Tree) (hash : NodeHash),
      woodland.forest.get? id = some tree → tree.contains hash = true →
      tree.id = id ∧ hash.isScopedTo id = true ∧ hash.Spells id) ∧
    (∀ (first second : TreeId) (firstTree secondTree : Tree) (hash : NodeHash),
      woodland.forest.get? first = some firstTree →
      woodland.forest.get? second = some secondTree →
      firstTree.contains hash = true → secondTree.contains hash = true →
      first = second) ∧
    (∀ (first second : NodeRef) (firstNode secondNode : Node),
      woodland.forest.node? first = some firstNode →
      woodland.forest.node? second = some secondNode → first ≠ second →
      ∀ (board : Blackboard) (firstTree secondTree : Tree)
        (change : NodeState → NodeState),
        let written := board.updateState firstTree firstNode change
        written.stateFor secondTree secondNode =
          board.stateFor secondTree secondNode ∧
        written.isRunning secondNode.hash =
          board.isRunning secondNode.hash) := by
  have labelled := (sound_of_run ran).labelled
  refine ⟨?_, ?_, ?_⟩
  · intro id tree hash registered contained
    have scopedTo := labelled.trees registered
    have isScoped := scopedTo.keys contained
    exact ⟨scopedTo.own, isScoped, NodeHash.isScopedTo_iff.mp isScoped⟩
  · intro first second firstTree secondTree hash
    exact labelled.eq_of_contains
  · intro first second firstNode secondNode firstFound secondFound different
      board firstTree secondTree change written
    have apart := labelled.hash_ne_of_ne firstFound secondFound different
    have untouched : written.states[secondNode.hash]? =
        board.states[secondNode.hash]? := by
      simp [written, Blackboard.updateState, Ne.symm apart]
    exact ⟨Blackboard.stateFor_congr untouched,
      Blackboard.isRunning_congr untouched⟩

/-- A subtree whose hashes spell the id of its tree in odd ways, or another
one. -/
def oddities : Subtree :=
  { name := "oddities", hash := some ⟨"x-+7"⟩, kind := .selector
    children :=
      [{ name := "zeros", hash := some ⟨"y-1-007"⟩, kind := .condition "alarm" },
       { name := "stranger", hash := some ⟨"z-8"⟩, kind := .command "flee" }] }

/-- The odd hashes are kept in one tree and replaced in another. -/
def outing : List Step :=
  let seven := (Tree.build ⟨7⟩ "seven" {}).root
  let eight := (Tree.build ⟨8⟩ "eight" {}).root
  [.plant { name := "seven", chosen := some ⟨7⟩ }, .create "eight" {},
   .edit ⟨7⟩ (.add (.detached oddities) seven none false),
   .across (.add ⟨7⟩ ⟨"x-+7"⟩ ⟨8⟩ eight none true)]

theorem hashes_of_outing :
    ∃ woodland seven eight, run {} outing = some woodland ∧
      woodland.forest.get? ⟨7⟩ = some seven ∧
      woodland.forest.get? ⟨8⟩ = some eight ∧ eight.nodeCount = 4 ∧
      seven.contains ⟨"y-1-007"⟩ = true ∧
      NodeHash.Spells ⟨"y-1-007"⟩ ⟨7⟩ ∧ seven.contains ⟨"z-8"⟩ = false ∧
      eight.contains ⟨"y-1-007"⟩ = false := by
  have checked : (run {} outing).any (fun woodland =>
      (woodland.forest.get? ⟨7⟩).any fun seven =>
      (woodland.forest.get? ⟨8⟩).any fun eight =>
        eight.nodeCount = 4 && seven.contains ⟨"y-1-007"⟩ &&
          !seven.contains ⟨"z-8"⟩) = true := by
    decide +kernel
  obtain ⟨woodland, ran, found⟩ := (Option.any_eq_true _ _).mp checked
  obtain ⟨seven, sevenFound, found⟩ := (Option.any_eq_true _ _).mp found
  obtain ⟨eight, eightFound, found⟩ := (Option.any_eq_true _ _).mp found
  simp only [Bool.and_eq_true, decide_eq_true_eq, Bool.not_eq_true'] at found
  obtain ⟨⟨count, kept⟩, replaced⟩ := found
  obtain ⟨scopes, apart, _⟩ := hashes_of_run ran
  have spells := (scopes _ _ _ sevenFound kept).2.2
  refine ⟨woodland, seven, eight, ran, sevenFound, eightFound, count, kept,
    spells, replaced, ?_⟩
  by_contra shared
  rw [Bool.not_eq_false] at shared
  have same := apart _ _ _ _ _ sevenFound eightFound kept shared
  revert same
  decide

end Woodland

end BehaviorTree
