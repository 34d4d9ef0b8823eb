import BehaviorTree.Proofs.Forest.Walking
import BehaviorTree.Proofs.Pass.Bounds
import BehaviorTree.Proofs.Pass.Running

/-!
# Ways back

A way from a node goes down its tree, and through Transitions to other trees.
If no chain of Transitions leads from a tree back to itself, then no way leads
from a node back to the node.
-/

namespace BehaviorTree

/-- No chain of Transitions leads from a tree back to itself. -/
def Forest.Acyclic (forest : Forest) : Prop :=
  ∀ id, ¬ Relation.TransGen forest.Links id id

namespace Forest

variable {forest : Forest} (wellFormed : forest.WellFormed)
include wellFormed

theorem follows_cases {ref next : NodeRef} (known : forest.Knows ref)
    (follows : next ∈ forest.childrenFollowing ref) :
    forest.Knows next ∧
      ((∀ other, forest.Below next other →
          forest.Below ref other ∧ other ≠ ref) ∧ next.tree = ref.tree ∨
        forest.Links ref.tree next.tree) := by
  obtain ⟨tree, node, located, rfl⟩ := known
  rcases located.mem_childrenFollowing_iff.mp follows with
    ⟨_, child, listed, rfl⟩ | ⟨selector, target, jumps, selected, rfl⟩
  · exact ⟨wellFormed.known_child located listed,
      .inl ⟨fun _ => below_child wellFormed located listed, rfl⟩⟩
  · have isTarget := wellFormed.located_target selected
    refine ⟨⟨target, target.rootNode, isTarget, ?_⟩,
      .inr ⟨tree, node, selector, target, located, rfl, jumps, selected, rfl⟩⟩
    rw [Tree.refTo, wellFormed.hash_rootNode isTarget.inForest]

/-- A way stays below its node, or it leads to another tree. -/
theorem leads_cases {ref other : NodeRef} (known : forest.Knows ref)
    (leads : forest.Leads ref other) :
    forest.Knows other ∧
      (forest.Below ref other ∧ other ≠ ref ∨
        Relation.TransGen forest.Links ref.tree other.tree) := by
  induction leads using Relation.TransGen.head_induction_on with
  | single follows =>
      obtain ⟨knows, below | links⟩ := follows_cases wellFormed known follows
      · exact ⟨knows, .inl (below.1 _ (.refl knows))⟩
      · exact ⟨knows, .inr (.single links)⟩
  | @head ref next follows _ induction =>
      obtain ⟨nextKnown, step⟩ := follows_cases wellFormed known follows
      obtain ⟨knows, way⟩ := induction nextKnown
      refine ⟨knows, ?_⟩
      rcases step with ⟨below, sameTree⟩ | links
      · rcases way with ⟨isBelow, _⟩ | chain
        · exact .inl (below _ isBelow)
        · rw [sameTree] at chain
          exact .inr chain
      · right
        rcases way with ⟨⟨_, _, sameTree, _⟩, _⟩ | chain
        · rw [sameTree]
          exact .single links
        · exact .head links chain

theorem hash_ne_of_leads (isScoped : forest.Scoped) {tree : Tree} {node : Node}
    (located : forest.Located tree node)
    (noReturn : ¬ forest.Leads (tree.refTo node) (tree.refTo node))
    {other : NodeRef} (leads : forest.Leads (tree.refTo node) other) :
    other.hash ≠ node.hash := by
  intro same
  obtain ⟨⟨found, target, foundLocated, rfl⟩, _⟩ :=
    leads_cases wellFormed ⟨tree, node, located, rfl⟩ leads
  obtain ⟨rfl, rfl⟩ := isScoped.unique located foundLocated same
  exact noReturn leads

/-- Without a chain of Transitions back to its tree, no way leads from a node
back to its hash. -/
theorem Acyclic.apart (acyclic : forest.Acyclic) (isScoped : forest.Scoped)
    {tree : Tree} {node : Node} {other : NodeRef}
    (located : forest.Located tree node)
    (leads : forest.Leads (tree.refTo node) other) : other.hash ≠ node.hash := by
  intro same
  obtain ⟨⟨found, target, foundLocated, rfl⟩, way⟩ :=
    leads_cases wellFormed ⟨tree, node, located, rfl⟩ leads
  obtain ⟨rfl, rfl⟩ := isScoped.unique located foundLocated same
  rcases way with ⟨_, differs⟩ | chain
  · exact differs rfl
  · exact acyclic _ chain

end Forest

end BehaviorTree
