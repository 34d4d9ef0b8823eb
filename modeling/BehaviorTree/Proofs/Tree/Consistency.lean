import Mathlib.Logic.Relation
import BehaviorTree.Proofs.Tree.Listing

/-!
# The check of any registry

The check from scratch looks at each node beside its neighbours, and compares the
length of the walk from the root with the number of nodes.  It tells which registries
are one tree, also among those that no edit leads to, if the root is registered and
the walk comes to an end.

The argument is by counting.  A walk meets its start, and the children of a node as
often as the node.  Where the links agree, it meets a node as often as the parent of
the node, so a walk that ends meets no node twice and the root below none.  A walk that
is as long as there are nodes then leaves none out.
-/

namespace BehaviorTree

namespace Tree

/-- The registry is one tree, of whatever kinds its nodes are. -/
structure Coherent (tree : Tree) : Prop where
  keyed : ∀ {hash : NodeHash} {node : Node},
    tree.nodes[hash]? = some node → node.hash = hash
  parentless : ∀ {hash : NodeHash} {node : Node},
    tree.nodes[hash]? = some node → (node.parent = none ↔ hash = tree.root)
  listed : ∀ {hash : NodeHash} {node : Node},
    tree.nodes[hash]? = some node → hash ≠ tree.root →
    ∃ parent parentNode, node.parent = some parent ∧
      tree.nodes[parent]? = some parentNode ∧
      parentNode.children.count hash = 1
  linked : ∀ {hash : NodeHash} {node : Node} {child : NodeHash},
    tree.nodes[hash]? = some node → child ∈ node.children →
    ∃ childNode, tree.nodes[child]? = some childNode ∧
      childNode.parent = some hash
  rooted : ∀ {hash : NodeHash} {node : Node},
    tree.nodes[hash]? = some node → tree.Within tree.root hash
  fitting : ∀ {hash : NodeHash} {node : Node},
    tree.nodes[hash]? = some node →
    node.arity.allows node.children.length = true

/-- One of the two nodes takes the upper one for the parent of the lower one. -/
def Leads (tree : Tree) (upper lower : NodeHash) : Prop :=
  tree.parentOf lower = some upper ∨ lower ∈ tree.childrenOf upper

variable {tree : Tree}

section Walks

variable {stack hashes : List NodeHash}

theorem Walks.perm (walks : tree.Walks stack hashes) :
    hashes.Perm (stack ++ hashes.flatMap tree.childrenOf) := by
  induction walks with
  | finish => exact .refl _
  | @meet hash rest later _ induction =>
      rw [List.cons_append, List.flatMap_cons, ← List.append_assoc]
      exact .cons hash (induction.trans (List.perm_append_comm.append_right _))

theorem Walks.walkWithin_eq (walks : tree.Walks stack hashes) (fuel : Nat) :
    tree.walkWithin fuel stack = hashes.take fuel := by
  induction walks generalizing fuel with
  | finish => rw [walkWithin_nil, List.take_nil]
  | meet _ induction =>
      cases fuel with
      | zero => rfl
      | succ fuel => rw [walkWithin, induction, List.take_succ_cons]

theorem Walks.length_descendants_iff {top : NodeHash} (walks : tree.Walks [top] hashes)
    (registered : tree.contains top = true) :
    (tree.descendants top).length = tree.nodes.size ↔
      hashes.length = tree.nodes.size := by
  rw [descendants, if_pos registered, walks.walkWithin_eq, List.length_take]
  omega

end Walks

namespace Agreeing

variable (agreeing : tree.Agreeing)
include agreeing

theorem count_childrenOf (hash other : NodeHash) :
    (tree.childrenOf other).count hash =
      if tree.parentOf hash = some other then 1 else 0 := by
  by_cases above : tree.parentOf hash = some other
  · obtain ⟨node, registered, isParent⟩ := registered_of_parentOf above
    obtain ⟨parentNode, parentRegistered, once⟩ := agreeing.listed registered isParent
    rw [if_pos above, childrenOf_eq parentRegistered, once]
  · rw [if_neg above]
    exact List.count_eq_zero_of_not_mem fun member =>
      above (agreeing.parentOf_of_mem member)

theorem count_flatMap_childrenOf (hash : NodeHash) (hashes : List NodeHash) :
    (hashes.flatMap tree.childrenOf).count hash =
      ((tree.parentOf hash).map hashes.count).getD 0 := by
  induction hashes with
  | nil => cases tree.parentOf hash <;> rfl
  | cons other rest induction =>
      rw [List.flatMap_cons, List.count_append, induction, agreeing.count_childrenOf]
      cases tree.parentOf hash with
      | none => rfl
      | some parent =>
          simp only [Option.map_some, Option.getD_some, Option.some.injEq, List.count_cons,
            beq_iff_eq, eq_comm (a := parent)]
          omega

theorem leads_iff {upper lower : NodeHash} :
    tree.Leads upper lower ↔ tree.parentOf lower = some upper :=
  or_iff_left_of_imp agreeing.parentOf_of_mem

theorem nodup_childrenOf (hash : NodeHash) : (tree.childrenOf hash).Nodup := by
  rw [List.nodup_iff_count_le_one]
  intro child
  rw [agreeing.count_childrenOf]
  split <;> omega

theorem eq_of_mem_childrenOf {first second child : NodeHash}
    (inFirst : child ∈ tree.childrenOf first) (inSecond : child ∈ tree.childrenOf second) :
    first = second :=
  Option.some.inj
    ((agreeing.parentOf_of_mem inFirst).symm.trans (agreeing.parentOf_of_mem inSecond))

theorem within_of_walks {stack hashes : List NodeHash} (walks : tree.Walks stack hashes)
    {hash : NodeHash} (member : hash ∈ hashes) : ∃ top ∈ stack, tree.Within top hash := by
  have whole : tree.walkWithin hashes.length stack = hashes := by
    rw [walks.walkWithin_eq, List.take_length]
  exact agreeing.walkWithin_sound (whole.symm ▸ member)

section Rooted

variable {hashes : List NodeHash} (walks : tree.Walks [tree.root] hashes)
include walks

theorem count_walk (hash : NodeHash) :
    hashes.count hash =
      [tree.root].count hash + ((tree.parentOf hash).map hashes.count).getD 0 := by
  rw [walks.perm.count_eq hash, List.count_append, agreeing.count_flatMap_childrenOf]

theorem count_walk_of_parentOf {hash parent : NodeHash}
    (above : tree.parentOf hash = some parent) :
    hashes.count hash = [tree.root].count hash + hashes.count parent := by
  rw [agreeing.count_walk walks hash, above, Option.map_some, Option.getD_some]

theorem count_le_of_within {top hash : NodeHash} (within : tree.Within top hash) :
    hashes.count top ≤ hashes.count hash := by
  induction within with
  | top => exact Nat.le_refl _
  | step above _ induction =>
      rw [agreeing.count_walk_of_parentOf walks above]
      exact Nat.le_add_left_of_le induction

/-- The root is met once more often than its parent, which would lie below it and so
be met as often. -/
theorem not_mem_of_parentOf_root {parent : NodeHash}
    (above : tree.parentOf tree.root = some parent) : parent ∉ hashes := by
  intro member
  obtain ⟨top, isRoot, within⟩ := agreeing.within_of_walks walks member
  have fewer := agreeing.count_le_of_within walks within
  rw [List.mem_singleton.mp isRoot, agreeing.count_walk_of_parentOf walks above,
    List.count_singleton_self] at fewer
  omega

theorem count_root : hashes.count tree.root = 1 := by
  rw [agreeing.count_walk walks, List.count_singleton_self]
  cases above : tree.parentOf tree.root with
  | none => rfl
  | some parent =>
      have unmet := agreeing.not_mem_of_parentOf_root walks above
      rw [Option.map_some, Option.getD_some, List.count_eq_zero_of_not_mem unmet]

theorem count_eq_one {hash : NodeHash} (within : tree.Within tree.root hash) :
    hashes.count hash = 1 := by
  induction within with
  | top => exact agreeing.count_root walks
  | @step hash parent above _ induction =>
      by_cases isRoot : hash = tree.root
      · rw [isRoot]
        exact agreeing.count_root walks
      · have notStart : [tree.root].count hash = 0 :=
          List.count_eq_zero_of_not_mem (mt List.mem_singleton.mp isRoot)
        rw [agreeing.count_walk_of_parentOf walks above, notStart, induction]

theorem mem_walk_iff {hash : NodeHash} :
    hash ∈ hashes ↔ tree.Within tree.root hash := by
  constructor
  · intro member
    obtain ⟨top, isRoot, within⟩ := agreeing.within_of_walks walks member
    exact List.mem_singleton.mp isRoot ▸ within
  · intro within
    exact List.count_pos_iff.mp (agreeing.count_eq_one walks within ▸ Nat.one_pos)

theorem nodup_walk : hashes.Nodup :=
  List.nodup_iff_count_eq_one.mpr fun _ member =>
    agreeing.count_eq_one walks ((agreeing.mem_walk_iff walks).mp member)

theorem length_walk_iff (rootRegistered : tree.contains tree.root = true) :
    hashes.length = tree.nodes.size ↔
      ∀ {hash : NodeHash} {node : Node},
        tree.nodes[hash]? = some node → tree.Within tree.root hash := by
  rw [tree.length_eq_size_iff (agreeing.nodup_walk walks)]
  · simp only [agreeing.mem_walk_iff walks]
  · intro hash member
    rw [contains_eq_isSome, Option.isSome_iff_exists] at rootRegistered
    obtain ⟨rootNode, isRoot⟩ := rootRegistered
    exact Option.isSome_iff_exists.mpr
      (((agreeing.mem_walk_iff walks).mp member).registered isRoot)

theorem parentOf_root
    (rooted : ∀ {hash : NodeHash} {node : Node},
      tree.nodes[hash]? = some node → tree.Within tree.root hash) :
    tree.parentOf tree.root = none := by
  cases above : tree.parentOf tree.root with
  | none => rfl
  | some parent =>
      obtain ⟨node, registered, isParent⟩ := registered_of_parentOf above
      obtain ⟨parentNode, found, _⟩ := agreeing.listed registered isParent
      exact (agreeing.not_mem_of_parentOf_root walks above
        ((agreeing.mem_walk_iff walks).mpr (rooted found))).elim

end Rooted

end Agreeing

namespace Coherent

theorem agreeing (coherent : tree.Coherent) : tree.Agreeing where
  keyed := coherent.keyed
  topmost registered := (coherent.parentless registered).mp
  listed := by
    intro hash parent node registered isParent
    have notRoot : hash ≠ tree.root := by
      intro isRoot
      rw [(coherent.parentless registered).mpr isRoot] at isParent
      cases isParent
    obtain ⟨other, parentNode, isOther, found, once⟩ :=
      coherent.listed registered notRoot
    cases isParent.symm.trans isOther
    exact ⟨parentNode, found, once⟩
  linked := coherent.linked
  fitting := coherent.fitting

theorem parentOf_root (coherent : tree.Coherent) : tree.parentOf tree.root = none := by
  cases above : tree.parentOf tree.root with
  | none => rfl
  | some parent =>
      obtain ⟨node, registered, isParent⟩ := registered_of_parentOf above
      rw [(coherent.parentless registered).mpr rfl] at isParent
      cases isParent

/-- No links lead from a node back to it: the step before would do so too, up to the
root, to which no link leads. -/
theorem not_leads_back (coherent : tree.Coherent) (hash : NodeHash) :
    ¬ Relation.TransGen tree.Leads hash hash := by
  have leads_iff {upper lower : NodeHash} :
      tree.Leads upper lower ↔ tree.parentOf lower = some upper :=
    coherent.agreeing.leads_iff
  intro back
  have within : tree.Within tree.root hash := by
    obtain ⟨_, _, last⟩ := Relation.TransGen.tail'_iff.mp back
    obtain ⟨node, registered, _⟩ := registered_of_parentOf (leads_iff.mp last)
    exact coherent.rooted registered
  induction within with
  | top =>
      obtain ⟨_, _, last⟩ := Relation.TransGen.tail'_iff.mp back
      cases coherent.parentOf_root.symm.trans (leads_iff.mp last)
  | step above _ induction =>
      obtain ⟨other, before, last⟩ := Relation.TransGen.tail'_iff.mp back
      cases above.symm.trans (leads_iff.mp last)
      exact induction (Relation.TransGen.head' (leads_iff.mpr above) before)

end Coherent

section Checked

variable {hashes : List NodeHash} (rootRegistered : tree.contains tree.root = true)
  (walks : tree.Walks [tree.root] hashes)
include rootRegistered walks

theorem Agreeing.coherent (agreeing : tree.Agreeing)
    (complete : hashes.length = tree.nodes.size) : tree.Coherent := by
  have rooted {hash : NodeHash} {node : Node} (registered : tree.nodes[hash]? = some node) :
      tree.Within tree.root hash :=
    (agreeing.length_walk_iff walks rootRegistered).mp complete registered
  exact {
    keyed := agreeing.keyed
    parentless := by
      refine fun {hash node} registered => ⟨agreeing.topmost registered, fun isRoot => ?_⟩
      rw [← parentOf_eq registered, isRoot, agreeing.parentOf_root walks rooted]
    listed := by
      intro hash node registered notRoot
      cases isParent : node.parent with
      | none => exact (notRoot (agreeing.topmost registered isParent)).elim
      | some parent =>
          obtain ⟨parentNode, found, once⟩ := agreeing.listed registered isParent
          exact ⟨parent, parentNode, rfl, found, once⟩
    linked := agreeing.linked
    rooted := rooted
    fitting := agreeing.fitting }

theorem isConsistent_iff_coherent : tree.isConsistent = true ↔ tree.Coherent := by
  rw [isConsistent_iff, walks.length_descendants_iff rootRegistered]
  constructor
  · exact fun ⟨complete, agreeing⟩ => agreeing.coherent rootRegistered walks complete
  · intro coherent
    exact ⟨(coherent.agreeing.length_walk_iff walks rootRegistered).mpr coherent.rooted,
      coherent.agreeing⟩

end Checked

/-- If the root of any registry is registered and the walk from it comes to an end, then
the check passes just if the registry is one tree.  It counts as the walk that is not
bounded does, and no count makes up for links that lead back to where they started,
for a child of two nodes, or for one that is listed twice. -/
theorem consistency_exact {hashes : List NodeHash}
    (rootRegistered : tree.contains tree.root = true)
    (walks : tree.Walks [tree.root] hashes) :
    (tree.isConsistent = true ↔ tree.Coherent) ∧
    ((tree.descendants tree.root).length = tree.nodes.size ↔
      hashes.length = tree.nodes.size) ∧
    (∀ hash, Relation.TransGen tree.Leads hash hash → tree.isConsistent = false) ∧
    (∀ first second child, first ≠ second → child ∈ tree.childrenOf first →
      child ∈ tree.childrenOf second → tree.isConsistent = false) ∧
    ∀ hash, ¬ (tree.childrenOf hash).Nodup → tree.isConsistent = false := by
  have sound : tree.isConsistent = true → tree.Coherent :=
    (isConsistent_iff_coherent rootRegistered walks).mp
  refine ⟨isConsistent_iff_coherent rootRegistered walks,
    walks.length_descendants_iff rootRegistered, fun hash back => ?_,
    fun first second child different inFirst inSecond => ?_, fun hash repeats => ?_⟩
  · exact Bool.eq_false_iff.mpr fun passes => (sound passes).not_leads_back hash back
  · exact Bool.eq_false_iff.mpr fun passes =>
      different ((sound passes).agreeing.eq_of_mem_childrenOf inFirst inSecond)
  · exact Bool.eq_false_iff.mpr fun passes =>
      repeats ((sound passes).agreeing.nodup_childrenOf hash)

/-- A roll of the camp with what the post lists, and with the others that are on it. -/
def roll (listed : List NodeHash) (others : List Node) : Tree :=
  { camp with
    root := ⟨"camp-1"⟩
    nodes := Std.ExtTreeMap.ofList <| List.map (fun node => (node.hash, node)) <|
      [{ Node.freshRoot ⟨"camp-1"⟩ with children := [⟨"post-1"⟩] },
       { Node.freshRoot ⟨"post-1"⟩ with
         parent := some ⟨"camp-1"⟩, children := listed, kind := .sequence },
       { Node.freshRoot ⟨"guard-1"⟩ with
         parent := some ⟨"post-1"⟩, kind := .command "mark_a" }] ++ others }

/-- Reports to himself. -/
def ghost : Node :=
  { Node.freshRoot ⟨"ghost-1"⟩ with
    parent := some ⟨"ghost-1"⟩, children := [⟨"ghost-1"⟩], kind := .inverter }

def orderly : Tree := roll [⟨"guard-1"⟩] []

/-- The guard is listed twice, which makes up for a ghost. -/
def miscounted : Tree := roll [⟨"guard-1"⟩, ⟨"guard-1"⟩] [ghost]

/-- The count is right, and the ghost is found out. -/
theorem ghost_found_out :
    orderly.Coherent ∧
      (miscounted.descendants miscounted.root).length = miscounted.nodes.size ∧
      miscounted.isConsistent = false := by
  have walks : orderly.Walks [orderly.root] (orderly.walkWithin 4 [orderly.root]) :=
    walks_of_finished (by decide +kernel)
  have miscounts : miscounted.Walks [miscounted.root]
      (miscounted.walkWithin 5 [miscounted.root]) :=
    walks_of_finished (by decide +kernel)
  obtain ⟨isOne, _⟩ := consistency_exact (by decide +kernel) walks
  obtain ⟨_, _, circles, _⟩ := consistency_exact (by decide +kernel) miscounts
  refine ⟨isOne.mp (by decide +kernel), by decide +kernel,
    circles ⟨"ghost-1"⟩ (.single (.inr ?_))⟩
  decide +kernel

end Tree

end BehaviorTree
