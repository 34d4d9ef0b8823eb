import BehaviorTree.Forest.Edit
import BehaviorTree.Proofs.Grove

/-!
# Refused edits

An edit that is refused leaves everything as it was: the registries of the trees
involved, their roots and the streams from which they mint.  This goes for the
edits of one tree, of two trees and of the trees of a forest.
-/

namespace BehaviorTree

/-- An edit that names its trees by their ids. -/
inductive ForestEdit where
  | add (source : TreeId) (hash : NodeHash) (dest : TreeId)
      (target : NodeHash) (position : Option Nat) (copying : Bool)
  | interpose (source : TreeId) (hash : NodeHash) (dest : TreeId)
      (target : NodeHash) (position : Option Nat) (copying : Bool)
  | swap (firstTree : TreeId) (first : NodeHash) (secondTree : TreeId)
      (second : NodeHash)

namespace ForestEdit

def run : ForestEdit → Edit Forest Unit
  | add source hash dest target position copying =>
    Edit.discard (Forest.addAcross source hash dest target position copying)
  | interpose source hash dest target position copying =>
    Edit.discard
      (Forest.interposeAcross source hash dest target position copying)
  | swap firstTree first secondTree second =>
    Edit.discard (Forest.swapAcross firstTree first secondTree second)

end ForestEdit

namespace Forest

@[simp] theorem get?_insert (forest : Forest) (tree : Tree) (id : TreeId) :
    (forest.insert tree).get? id =
      if id = tree.id then some tree else forest.get? id := by
  simp only [insert, get?, Std.ExtTreeMap.getElem?_insert,
    Std.LawfulEqCmp.compare_eq_iff_eq]
  by_cases same : tree.id = id
  · simp [same]
  · simp [same, Ne.symm same]

theorem ext {first second : Forest}
    (same : ∀ id, first.get? id = second.get? id) : first = second := by
  cases first
  cases second
  exact congrArg Forest.mk (Std.ExtTreeMap.ext_getElem? same)

/-- Every tree is registered under its own id and is well-formed. -/
structure WellFormed (forest : Forest) : Prop where
  keyed : ∀ {id : TreeId} {tree : Tree},
    forest.get? id = some tree → tree.id = id
  trees : ∀ {id : TreeId} {tree : Tree},
    forest.get? id = some tree → tree.WellFormed

/-- The forest of some trees; later ones replace earlier ones of the same id. -/
def ofTrees (trees : List Tree) : Forest := trees.foldl insert {}

namespace WellFormed

theorem insert {forest : Forest} (wellFormed : forest.WellFormed)
    {tree : Tree} (treeWellFormed : tree.WellFormed) :
    (forest.insert tree).WellFormed := by
  constructor
  · intro id found registered
    rw [get?_insert] at registered
    split_ifs at registered with same
    · rw [← Option.some.inj registered, same]
    · exact wellFormed.keyed registered
  · intro id found registered
    rw [get?_insert] at registered
    split_ifs at registered
    · exact Option.some.inj registered ▸ treeWellFormed
    · exact wellFormed.trees registered

theorem ofTrees {trees : List Tree}
    (treesWellFormed : ∀ tree ∈ trees, tree.WellFormed) :
    (ofTrees trees).WellFormed := by
  have grows : ∀ (rest : List Tree) (forest : Forest), forest.WellFormed →
      (∀ tree ∈ rest, tree.WellFormed) →
      (rest.foldl Forest.insert forest).WellFormed := by
    intro rest
    induction rest with
    | nil => exact fun _ wellFormed _ => wellFormed
    | cons tree rest induction =>
        intro forest wellFormed restWellFormed
        refine induction _
          (wellFormed.insert (restWellFormed tree List.mem_cons_self)) ?_
        exact fun other member =>
          restWellFormed other (List.mem_cons_of_mem _ member)
  refine grows trees {} ⟨?_, ?_⟩ treesWellFormed
  · intro id tree registered
    simp [get?] at registered
  · intro id tree registered
    simp [get?] at registered

theorem of_steps {steps : List Grove.Step} {grove : Grove}
    (built : Grove.run [] steps = some grove) : (Forest.ofTrees grove).WellFormed := by
  have empty : Grove.WellFormed [] := by
    intro tree member
    cases member
  exact ofTrees (Grove.run_wellFormed empty built)

variable {forest : Forest} (wellFormed : forest.WellFormed)
include wellFormed

theorem insert_self {id : TreeId} {tree : Tree}
    (registered : forest.get? id = some tree) : forest.insert tree = forest := by
  apply ext
  intro other
  rw [get?_insert, wellFormed.keyed registered]
  split_ifs with same
  · rw [same, registered]
  · rfl

variable {β : Type}

theorem editTree_upholds {edit : Edit Tree β}
    (upholds : ∀ {tree : Tree}, tree.WellFormed →
      Edit.Upholds tree (fun _ after => after.WellFormed) (edit tree))
    (id : TreeId) :
    Edit.Upholds forest (fun _ after => after.WellFormed)
      (editTree id edit forest) := by
  unfold editTree
  refine .after_get ?_
  cases registered : forest.get? id with
  | none => exact rfl
  | some tree =>
      refine .zoom ?_ (wellFormed.insert_self registered)
      apply (upholds (wellFormed.trees registered)).mono
      exact fun _ after edited => wellFormed.insert edited

theorem editPair_upholds {edit : Edit TreePair β}
    (upholds : ∀ {pair : TreePair}, pair.WellFormed →
      Edit.Upholds pair (fun _ after => after.WellFormed) (edit pair))
    {found : Except TopologyError TreePair}
    (registered : ∀ {pair : TreePair}, found = .ok pair →
      (∃ id, forest.get? id = some pair.dest) ∧
        ∃ id, forest.get? id = some pair.source) :
    Edit.Upholds forest (fun _ after => after.WellFormed)
      (editPair found edit forest) := by
  unfold editPair
  refine .after_require fun pair isPair => ?_
  obtain ⟨⟨destId, destFound⟩, sourceId, sourceFound⟩ := registered isPair
  refine .zoom ?_ ?_
  · refine (upholds ⟨wellFormed.trees destFound,
      wellFormed.trees sourceFound⟩).mono ?_
    exact fun _ after edited =>
      (wellFormed.insert edited.dest).insert edited.source
  · rw [wellFormed.insert_self destFound, wellFormed.insert_self sourceFound]

omit wellFormed in
theorem of_pair {dest source : TreeId} {pair : TreePair}
    (found : forest.pair dest source = .ok pair) :
    forest.get? dest = some pair.dest ∧
      forest.get? source = some pair.source := by
  rw [Forest.pair] at found
  split_ifs at found
  split at found
  · next destFound sourceFound =>
      cases found
      exact ⟨destFound, sourceFound⟩
  · cases found
  · cases found

omit wellFormed in
theorem of_transferPair {source dest : TreeId} {pair : TreePair}
    (found : forest.transferPair source dest = .ok pair) :
    forest.get? dest = some pair.dest ∧
      forest.get? source = some pair.source := by
  rw [transferPair] at found
  split at found
  · next turned turnedFound =>
      cases found
      exact (of_pair turnedFound).symm
  · cases found

theorem edit_upholds (edit : ForestEdit) :
    Edit.Upholds forest (fun _ after => after.WellFormed)
      (edit.run forest) := by
  cases edit with
  | add source hash dest target position copying =>
      apply Edit.Upholds.discard
      unfold addAcross
      by_cases same : source = dest
      · rw [if_pos same]
        exact wellFormed.editTree_upholds (fun treeWellFormed =>
          treeWellFormed.add_upholds position copying _ target) dest
      · rw [if_neg same]
        refine .after_get (wellFormed.editPair_upholds (fun pairWellFormed =>
          pairWellFormed.addForeign_upholds position copying hash target) ?_)
        intro pair found
        obtain ⟨destFound, sourceFound⟩ := of_transferPair found
        exact ⟨⟨dest, destFound⟩, source, sourceFound⟩
  | interpose source hash dest target position copying =>
      apply Edit.Upholds.discard
      unfold interposeAcross
      by_cases same : source = dest
      · rw [if_pos same]
        exact wellFormed.editTree_upholds (fun treeWellFormed =>
          treeWellFormed.interpose_upholds position copying _ target) dest
      · rw [if_neg same]
        refine .after_get (wellFormed.editPair_upholds (fun pairWellFormed =>
          pairWellFormed.interposeForeign_upholds position copying hash target)
          ?_)
        intro pair found
        obtain ⟨destFound, sourceFound⟩ := of_transferPair found
        exact ⟨⟨dest, destFound⟩, source, sourceFound⟩
  | swap firstTree first secondTree second =>
      apply Edit.Upholds.discard
      unfold swapAcross
      by_cases same : firstTree = secondTree
      · rw [if_pos same]
        exact (wellFormed.editTree_upholds (fun treeWellFormed =>
          treeWellFormed.swap_upholds first second) firstTree).bind
          fun _ _ edited => edited
      · rw [if_neg same]
        refine .after_get (wellFormed.editPair_upholds (fun pairWellFormed =>
          pairWellFormed.swapForeign_upholds first second) ?_)
        intro pair found
        obtain ⟨firstFound, secondFound⟩ := of_pair found
        exact ⟨⟨firstTree, firstFound⟩, secondTree, secondFound⟩

end WellFormed

end Forest

/-- Whatever trees a sequence of edits leads to, a refused edit of one of them,
of two of them or of a forest of them changes nothing. -/
theorem unchanged_of_refused {steps : List Grove.Step} {grove : Grove}
    (ran : Grove.run [] steps = some grove) :
    (∀ tree ∈ grove, ∀ (edit : TreeEdit) (cause : TopologyError)
      (after : Tree), edit.run tree = .error (.refused cause) after →
      after = tree) ∧
    (∀ dest ∈ grove, ∀ source ∈ grove, ∀ (edit : TransferEdit)
      (cause : TopologyError) (after : TreePair),
      edit.run { dest, source } = .error (.refused cause) after →
      after = { dest, source }) ∧
    (∀ trees : List Tree, trees ⊆ grove → ∀ (edit : ForestEdit)
      (cause : TopologyError) (after : Forest),
      edit.run (Forest.ofTrees trees) = .error (.refused cause) after →
      after = Forest.ofTrees trees) := by
  have empty : Grove.WellFormed [] := by
    intro tree member
    cases member
  have wellFormed := Grove.run_wellFormed empty ran
  refine ⟨?_, ?_, ?_⟩
  · intro tree member edit cause after refused
    exact (edit.run_upholds (wellFormed tree member)).unchanged refused
  · intro dest destMember source sourceMember edit cause after refused
    exact (edit.run_upholds ⟨wellFormed dest destMember,
      wellFormed source sourceMember⟩).unchanged refused
  · intro trees included edit cause after refused
    have forestWellFormed : (Forest.ofTrees trees).WellFormed :=
      .ofTrees fun tree member => wellFormed tree (included member)
    exact (forestWellFormed.edit_upholds edit).unchanged refused

/-- A refusal in one of the trees between which a subtree moved. -/
theorem unchanged_of_refused_removal :
    ∃ grove tree cause, Grove.run [] Grove.migration = some grove ∧
      tree ∈ grove ∧
      (TreeEdit.remove tree.root).run tree =
        .error (.refused cause) tree := by
  have checked : ((Grove.run [] Grove.migration).bind (·[1]?)).any
      (fun tree => match (TreeEdit.remove tree.root).run tree with
        | .error (.refused _) _ => true
        | _ => false) = true := by
    decide +kernel
  obtain ⟨tree, found, refuses⟩ := (Option.any_eq_true _ _).mp checked
  obtain ⟨grove, ran, inGrove⟩ := Option.bind_eq_some_iff.mp found
  have member := List.mem_of_getElem? inGrove
  split at refuses
  · next cause after refused =>
      have same := (unchanged_of_refused ran).1 tree member _ cause after refused
      exact ⟨grove, tree, cause, ran, member, same ▸ refused⟩
  · cases refuses

end BehaviorTree
