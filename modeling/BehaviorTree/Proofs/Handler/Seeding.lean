import BehaviorTree.Proofs.Handler.Setup
import BehaviorTree.Proofs.NodeState
import BehaviorTree.Proofs.Pass.Running

/-!
# Seeding

Every node on the walk of setup gets a state that fits it and agrees with its
configuration.  A state that was there and fits goes on from the progress that
it had.
-/

namespace BehaviorTree

namespace Blackboard

/-- The state that setup gives a node. -/
def seeded (board : Blackboard) (tree : Tree) (node : Node) (override : Bool) :
    NodeState :=
  if override then .forNode tree node
  else (board.stateFor tree node).syncConfig node

theorem seedState_eq (board : Blackboard) (tree : Tree) (node : Node)
    (override : Bool) :
    board.seedState tree node override =
      board.setState node.hash (board.seeded tree node override) := by
  rw [seedState, seeded]
  cases override <;> rfl

theorem seeded_congr {first second : Blackboard} {tree : Tree} {node : Node}
    (same : first.states[node.hash]? = second.states[node.hash]?)
    (override : Bool) :
    first.seeded tree node override = second.seeded tree node override := by
  rw [seeded, seeded, stateFor_congr same]

theorem seeded_of_absent {board : Blackboard} {node : Node}
    (absent : board.states[node.hash]? = none) (tree : Tree) (override : Bool) :
    board.seeded tree node override = .forNode tree node := by
  rw [seeded, stateFor, absent, NodeState.syncConfig_forNode, ite_self]

theorem fits_seeded (board : Blackboard) (tree : Tree) (node : Node)
    (override : Bool) :
    (board.seeded tree node override).kind.fits node.kind = true := by
  rw [seeded]
  split
  · exact fits_forNode tree node
  · exact KindState.fits_of_shape (NodeState.shape_syncKind _ _)
      (board.fits_stateFor tree node)

theorem configured_seeded (board : Blackboard) (tree : Tree) (node : Node)
    (override : Bool) :
    (board.seeded tree node override).kind.Configured node.kind := by
  rw [seeded]
  split
  · exact NodeState.configured_initialKind tree node
  · exact NodeState.configured_syncKind (board.fits_stateFor tree node)

theorem states_clearRunning (board : Blackboard) (hash : NodeHash) :
    board.clearRunning.states[hash]? =
      board.states[hash]?.map fun state => { state with running := false } := by
  simp only [clearRunning, Std.ExtTreeMap.getElem?_map]

theorem stateFor_clearRunning (board : Blackboard) (tree : Tree) (node : Node) :
    board.clearRunning.stateFor tree node =
      { board.stateFor tree node with running := false } := by
  rw [stateFor, stateFor, states_clearRunning]
  cases board.states[node.hash]? with
  | none => rfl
  | some state =>
      dsimp only [Option.map_some]
      split <;> rfl

end Blackboard

namespace Handler

variable {forest : Forest} {override : Bool} {walk : List NodeRef}
  {board : Blackboard}

/-- Seeding writes to states only. -/
theorem seedStates_eq_with (forest : Forest) (override : Bool)
    (walk : List NodeRef) (board : Blackboard) :
    ∃ states, seedStates forest override walk board = { board with states } := by
  induction walk generalizing board with
  | nil => exact ⟨board.states, rfl⟩
  | cons ref rest induction =>
      rw [seedStates, List.foldl_cons]
      cases forest.get? ref.tree with
      | none => exact induction board
      | some tree =>
          dsimp only
          cases tree.nodes[ref.hash]? with
          | none => exact induction board
          | some node =>
              obtain ⟨states, rest⟩ := induction (board.seedState tree node override)
              refine ⟨states, rest.trans ?_⟩
              rw [Blackboard.seedState_eq]
              rfl

theorem seedStates_cons {tree : Tree} {node : Node}
    (located : forest.Located tree node) (rest : List NodeRef) :
    seedStates forest override (tree.refTo node :: rest) board =
      seedStates forest override rest (board.seedState tree node override) := by
  rw [seedStates, List.foldl_cons, Tree.refTo]
  dsimp only
  rw [located.inForest]
  dsimp only
  rw [located.inTree]
  rfl

theorem states_seedStates_of_not_mem {hash : NodeHash}
    (known : ∀ ref ∈ walk, forest.Knows ref)
    (notMet : ∀ ref ∈ walk, ref.hash ≠ hash) :
    (seedStates forest override walk board).states[hash]? =
      board.states[hash]? := by
  induction walk generalizing board with
  | nil => rfl
  | cons ref rest induction =>
      obtain ⟨tree, node, located, rfl⟩ := known ref List.mem_cons_self
      rw [seedStates_cons located, induction
        (fun other member => known other (List.mem_cons_of_mem _ member))
        (fun other member => notMet other (List.mem_cons_of_mem _ member)),
        Blackboard.seedState_eq, Blackboard.states_setState]
      exact if_neg (notMet _ List.mem_cons_self).symm

/-- Every node on the walk is seeded once, with what it had before the walk. -/
theorem states_seedStates_of_mem (isScoped : forest.Scoped) (nodup : walk.Nodup)
    (known : ∀ ref ∈ walk, forest.Knows ref) {tree : Tree} {node : Node}
    (located : forest.Located tree node) (met : tree.refTo node ∈ walk) :
    (seedStates forest override walk board).states[node.hash]? =
      some (board.seeded tree node override) := by
  induction walk generalizing board with
  | nil => cases met
  | cons ref rest induction =>
      obtain ⟨other, found, otherLocated, rfl⟩ := known ref List.mem_cons_self
      obtain ⟨notLater, nodup⟩ := List.nodup_cons.mp nodup
      have known : ∀ ref ∈ rest, forest.Knows ref := fun ref member =>
        known ref (List.mem_cons_of_mem _ member)
      rw [seedStates_cons otherLocated]
      by_cases same : found.hash = node.hash
      · obtain ⟨rfl, rfl⟩ := isScoped.unique located otherLocated same
        rw [states_seedStates_of_not_mem known, Blackboard.seedState_eq,
          Blackboard.states_setState]
        · exact if_pos rfl
        · intro later member sameHash
          obtain ⟨_, _, laterLocated, rfl⟩ := known later member
          obtain ⟨rfl, rfl⟩ := isScoped.unique located laterLocated sameHash
          exact notLater member
      · rcases List.mem_cons.mp met with isFirst | member
        · exact absurd (congrArg NodeRef.hash isFirst).symm same
        · rw [induction nodup known member]
          congr 1
          apply Blackboard.seeded_congr
          rw [Blackboard.seedState_eq, Blackboard.states_setState]
          exact if_neg (Ne.symm same)

end Handler

end BehaviorTree
