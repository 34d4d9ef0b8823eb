import BehaviorTree.Proofs.Tree.Editing
import BehaviorTree.Proofs.Tree.Walking

/-!
# Sequences of edits

A grove is a list of trees.  Trees are added to it as they are built, and then
edited one by one or two at a time.  A refused edit is followed by further
edits; only when the hashes of a tree run out does a sequence end.  Whatever the
sequence, all trees of the grove are well-formed.
-/

namespace BehaviorTree

/-- An edit of one tree with its arguments. -/
inductive TreeEdit where
  | add (origin : NodeOrigin) (target : NodeHash) (position : Option Nat)
      (copying : Bool)
  | interpose (origin : NodeOrigin) (target : NodeHash)
      (position : Option Nat) (copying : Bool)
  | shift (hash : NodeHash) (position : Option Nat)
  | swap (first second : NodeHash)
  | remove (hash : NodeHash)
  | rename (hash : NodeHash) (name : String)
  | setWeight (hash : NodeHash) (weight : Float)
  | replaceKind (hash : NodeHash) (kind : NodeKind)

/-- An edit of two trees with its arguments. -/
inductive TransferEdit where
  | add (hash target : NodeHash) (position : Option Nat) (copying : Bool)
  | interpose (hash target : NodeHash) (position : Option Nat) (copying : Bool)
  | swap (first second : NodeHash)

namespace TreeEdit

def run : TreeEdit → Edit Tree Unit
  | add origin target position copying =>
    Edit.discard (Tree.add origin target position copying)
  | interpose origin target position copying =>
    Edit.discard (Tree.interpose origin target position copying)
  | shift hash position => Tree.shift hash position
  | swap first second => Tree.swap first second
  | remove hash => Edit.discard (Tree.remove hash)
  | rename hash name => Tree.rename hash name
  | setWeight hash weight => Tree.setWeight hash weight
  | replaceKind hash kind => Tree.replaceKind hash kind

theorem run_upholds (edit : TreeEdit) {tree : Tree}
    (wellFormed : tree.WellFormed) :
    Edit.Upholds tree (fun _ after => after.WellFormed) (edit.run tree) := by
  cases edit with
  | add origin target position copying =>
      exact (wellFormed.add_upholds position copying origin target).discard
  | interpose origin target position copying =>
      exact
        (wellFormed.interpose_upholds position copying origin target).discard
  | shift hash position => exact wellFormed.shift_upholds hash position
  | swap first second => exact wellFormed.swap_upholds first second
  | remove hash => exact (wellFormed.remove_upholds hash).discard
  | rename hash name => exact wellFormed.rename_upholds hash name
  | setWeight hash weight => exact wellFormed.setWeight_upholds hash weight
  | replaceKind hash kind => exact wellFormed.replaceKind_upholds hash kind

end TreeEdit

namespace TransferEdit

def run : TransferEdit → Edit TreePair Unit
  | add hash target position copying =>
    Edit.discard (Tree.addForeign hash target position copying)
  | interpose hash target position copying =>
    Edit.discard (Tree.interposeForeign hash target position copying)
  | swap first second => Edit.discard (Tree.swapForeign first second)

theorem run_upholds (edit : TransferEdit) {pair : TreePair}
    (wellFormed : pair.WellFormed) :
    Edit.Upholds pair (fun _ after => after.WellFormed) (edit.run pair) := by
  cases edit with
  | add hash target position copying =>
      exact
        (wellFormed.addForeign_upholds position copying hash target).discard
  | interpose hash target position copying =>
      exact (wellFormed.interposeForeign_upholds position copying hash
        target).discard
  | swap first second =>
      exact (wellFormed.swapForeign_upholds first second).discard

end TransferEdit

/-- A new tree satisfies the invariant. -/
theorem Tree.WellFormed.build (id : TreeId) (name : String)
    (hashing : HashConfig) : (Tree.build id name hashing).WellFormed := by
  let tree := Tree.build id name hashing
  have only : ∀ {hash : NodeHash} {node : Node},
      tree.nodes[hash]? = some node →
      hash = tree.root ∧ node = .freshRoot tree.root := by
    intro hash node registered
    have inserted : tree.nodes[hash]? =
        if tree.root = hash then some (.freshRoot tree.root) else none := by
      simp [tree, Tree.build, Std.ExtTreeMap.getElem?_insert,
        Std.LawfulEqCmp.compare_eq_iff_eq]
    rw [inserted] at registered
    split_ifs at registered with same
    exact ⟨same.symm, (Option.some.inj registered).symm⟩
  have registered : tree.nodes[tree.root]? = some (.freshRoot tree.root) :=
    Std.ExtTreeMap.getElem?_insert_self
  refine .of_links ?_ ⟨_, registered, rfl, rfl⟩ ?_ ?_ ?_ ?_
  · intro hash node found
    obtain ⟨rfl, rfl⟩ := only found
    rfl
  · exact fun found _ => (only found).1
  · intro hash node found
    obtain ⟨rfl, rfl⟩ := only found
    refine ⟨.nil, fun child => ?_⟩
    constructor
    · intro member
      cases member
    · intro above
      obtain ⟨childNode, childFound, parentIs⟩ :=
        Tree.registered_of_parentOf above
      obtain ⟨rfl, rfl⟩ := only childFound
      cases parentIs
  · intro hash node found
    obtain ⟨rfl, rfl⟩ := only found
    exact .top
  · intro hash node found
    obtain ⟨rfl, rfl⟩ := only found
    rfl

abbrev Grove := List Tree

namespace Grove

/-- One step of a sequence: a tree is built, or trees of the grove are edited. -/
inductive Step where
  | build (id : TreeId) (name : String) (hashing : HashConfig)
  | edit (index : Nat) (edit : TreeEdit)
  | transfer (dest source : Nat) (edit : TransferEdit)

/-- The grove after a step; none if the hashes of a tree ran out.  A step that
does not name trees of the grove, or two distinct ones, does nothing. -/
def step (grove : Grove) : Step → Option Grove
  | .build id name hashing => some (grove ++ [Tree.build id name hashing])
  | .edit index edit =>
    match grove[index]? with
    | none => some grove
    | some tree => (Edit.settle edit.run tree).map (grove.set index)
  | .transfer dest source edit =>
    if dest = source then some grove
    else
      match grove[dest]?, grove[source]? with
      | some destTree, some sourceTree =>
        (Edit.settle edit.run { dest := destTree, source := sourceTree }).map
          fun pair => (grove.set dest pair.dest).set source pair.source
      | _, _ => some grove

/-- The grove that a sequence of steps leads to. -/
def run (grove : Grove) : List Step → Option Grove
  | [] => some grove
  | first :: rest => (grove.step first).bind (run · rest)

def WellFormed (grove : Grove) : Prop := ∀ tree ∈ grove, tree.WellFormed

theorem WellFormed.set {grove : Grove} (wellFormed : grove.WellFormed)
    {tree : Tree} (treeWellFormed : tree.WellFormed) (index : Nat) :
    WellFormed (grove.set index tree) := by
  intro other member
  rcases List.mem_or_eq_of_mem_set member with member | rfl
  · exact wellFormed other member
  · exact treeWellFormed

theorem step_wellFormed {grove after : Grove} {action : Step}
    (wellFormed : grove.WellFormed) (stepped : grove.step action = some after) :
    after.WellFormed := by
  cases action with
  | build id name hashing =>
      rw [step, Option.some.injEq] at stepped
      subst stepped
      intro tree member
      rcases List.mem_append.mp member with member | member
      · exact wellFormed tree member
      · rw [List.mem_singleton.mp member]
        exact .build id name hashing
  | edit index edit =>
      rw [step] at stepped
      cases found : grove[index]? with
      | none =>
          rw [found, Option.some.injEq] at stepped
          exact stepped ▸ wellFormed
      | some tree =>
          rw [found] at stepped
          obtain ⟨edited, settled, rfl⟩ := Option.map_eq_some_iff.mp stepped
          have treeWellFormed := wellFormed tree (List.mem_of_getElem? found)
          exact wellFormed.set ((edit.run_upholds treeWellFormed).of_settle
            treeWellFormed settled) index
  | transfer dest source edit =>
      rw [step] at stepped
      by_cases same : dest = source
      · rw [if_pos same, Option.some.injEq] at stepped
        exact stepped ▸ wellFormed
      rw [if_neg same] at stepped
      split at stepped
      · next destTree sourceTree destFound sourceFound =>
          obtain ⟨pair, settled, rfl⟩ := Option.map_eq_some_iff.mp stepped
          have pairWellFormed :
              TreePair.WellFormed { dest := destTree, source := sourceTree } :=
            ⟨wellFormed destTree (List.mem_of_getElem? destFound),
              wellFormed sourceTree (List.mem_of_getElem? sourceFound)⟩
          have edited := (edit.run_upholds pairWellFormed).of_settle
            pairWellFormed settled
          exact (wellFormed.set edited.dest dest).set edited.source source
      · rw [Option.some.injEq] at stepped
        exact stepped ▸ wellFormed

theorem run_wellFormed {grove after : Grove} {steps : List Step}
    (wellFormed : grove.WellFormed) (ran : grove.run steps = some after) :
    after.WellFormed := by
  induction steps generalizing grove with
  | nil =>
      rw [run, Option.some.injEq] at ran
      exact ran ▸ wellFormed
  | cons first rest induction =>
      rw [run, Option.bind_eq_some_iff] at ran
      obtain ⟨middle, stepped, ran⟩ := ran
      exact induction (step_wellFormed wellFormed stepped) ran

/-- All trees that any sequence of edits leads to are well-formed, and the
check from scratch agrees. -/
theorem wellFormed_of_run {steps : List Step} {grove : Grove}
    (ran : run [] steps = some grove) :
    ∀ tree ∈ grove, tree.WellFormed ∧ tree.isConsistent = true := by
  have empty : WellFormed [] := by
    intro tree member
    cases member
  intro tree member
  have wellFormed := run_wellFormed empty ran tree member
  exact ⟨wellFormed, wellFormed.isConsistent⟩

/-- A subtree that suggests one hash twice and one of another tree. -/
def quarrel : Subtree :=
  { name := "quarrel", hash := some ⟨"top-1"⟩, kind := .selector
    children :=
      [{ name := "again", hash := some ⟨"top-1"⟩, kind := .condition "alarm" },
       { name := "other", hash := some ⟨"top-2"⟩, kind := .command "flee" }] }

/-- The subtree grows in one tree and moves to another, between which a removal
of the root is refused. -/
def migration : List Step :=
  let first := (Tree.build ⟨1⟩ "first" {}).root
  let second := (Tree.build ⟨2⟩ "second" {}).root
  [.build ⟨1⟩ "first" {}, .build ⟨2⟩ "second" {},
   .edit 0 (.add (.detached quarrel) first none false),
   .edit 0 (.remove first),
   .transfer 1 0 (.add ⟨"top-1"⟩ second none false)]

theorem wellFormed_of_migration :
    ∃ grove, run [] migration = some grove ∧
      grove.map Tree.nodeCount = [1, 4] ∧
      ∀ tree ∈ grove, tree.WellFormed ∧ tree.isConsistent = true := by
  have counts : (run [] migration).map (·.map Tree.nodeCount) =
      some [1, 4] := by
    decide +kernel
  obtain ⟨grove, ran, sizes⟩ := Option.map_eq_some_iff.mp counts
  exact ⟨grove, ran, sizes, wellFormed_of_run ran⟩

end Grove

end BehaviorTree
