import Mathlib.Data.List.Perm.Basic
import BehaviorTree.Proofs.Draw
import BehaviorTree.Proofs.Pass.Lifecycle

/-!
# Candidates

The candidates of a Prob composite are the children that it can still draw.
Opening it gives it each child once, a draw takes one out, and closing it leaves
none.  So what runs under a hash is tidy: it has no candidate twice.
-/

namespace BehaviorTree

/-- The children that a Prob composite can still tick in this activation. -/
def KindState.candidates : KindState → List Nat
  | prob _ available runningChild =>
    runningChild.toList ++ available.map Prod.fst
  | _ => []

/-- The candidates of the node with a hash. -/
def Blackboard.candidates (board : Blackboard) (hash : NodeHash) : List Nat :=
  match board.states[hash]? with
  | some state => state.kind.candidates
  | none => []

/-- Whatever runs under a hash has each of its candidates once. -/
def Blackboard.Tidy (board : Blackboard) (hash : NodeHash) : Prop :=
  ∀ state : NodeState, board.states[hash]? = some state →
    state.running = true → state.kind.candidates.Nodup

theorem KindState.candidates_of_not_prob {state : KindState} {kind : NodeKind}
    (fits : state.fits kind = true)
    (notProb : ¬ (kind = .probSequence ∨ kind = .probSelector)) :
    state.candidates = [] := by
  cases state with
  | prob =>
      cases kind with
      | probSequence => exact absurd (.inl rfl) notProb
      | probSelector => exact absurd (.inr rfl) notProb
      | _ => simp [KindState.fits, KindState.shape, NodeKind.stateShape] at fits
  | _ => rfl

namespace Blackboard

theorem candidates_eq {board : Blackboard} {hash : NodeHash} {state : NodeState}
    (present : board.states[hash]? = some state) :
    board.candidates hash = state.kind.candidates := by
  rw [candidates, present]

theorem candidates_congr {first second : Blackboard} {hash : NodeHash}
    (same : first.states[hash]? = second.states[hash]?) :
    first.candidates hash = second.candidates hash := by
  rw [candidates, candidates, same]

theorem tidy_congr {first second : Blackboard} {hash : NodeHash}
    (same : second.states[hash]? = first.states[hash]?)
    (tidy : first.Tidy hash) : second.Tidy hash := by
  intro state present running
  rw [same] at present
  exact tidy state present running

theorem tidy_of_nodup {board : Blackboard} {hash : NodeHash}
    (distinct : (board.candidates hash).Nodup) : board.Tidy hash := by
  intro state present _
  rw [candidates_eq present] at distinct
  exact distinct

/-- A node executes with the candidates of its hash, or afresh without any. -/
theorem candidates_stateFor (board : Blackboard) (tree : Tree) (node : Node) :
    (board.stateFor tree node).kind.candidates.Sublist
      (board.candidates node.hash) := by
  have fresh : (NodeState.forNode tree node).kind.candidates = [] := by
    cases kind : node.kind <;>
      simp [NodeState.forNode, NodeState.initialKind, kind,
        KindState.candidates]
  rw [stateFor, candidates]
  cases present : board.states[node.hash]? with
  | none => exact fresh ▸ List.nil_sublist _
  | some state =>
      dsimp only
      split
      · exact .refl _
      · rw [fresh]
        exact List.nil_sublist _

/-- A node that is running executes with each candidate once. -/
theorem Tidy.stateFor {board : Blackboard} {node : Node}
    (tidy : board.Tidy node.hash) (tree : Tree)
    (running : (board.stateFor tree node).running = true) :
    (board.stateFor tree node).kind.candidates.Nodup := by
  rw [Blackboard.stateFor] at running ⊢
  cases present : board.states[node.hash]? with
  | none =>
      rw [present] at running
      cases running
  | some state =>
      rw [present] at running
      dsimp only at running ⊢
      split
      · next fits =>
          rw [if_pos fits] at running
          exact tidy state present running
      · next misfits =>
          rw [if_neg misfits] at running
          cases running

end Blackboard

namespace Pass

variable {α : Type} {tree : Tree} {node : Node} {before after : Pass α}

/-- The next child of a Prob composite is one of the candidates, and the others
remain. -/
theorem nextProbChild_cases (pass : Pass α) (tree : Tree) (node : Node) :
    ((pass.nextProbChild tree node).1 = none ∧
      (pass.nextProbChild tree node).2.board = pass.board) ∨
    ∃ index,
      (pass.nextProbChild tree node).1 = some index ∧
      (pass.nextProbChild tree node).2.log = pass.log ∧
      (pass.board.candidates node.hash).Perm
        (index :: (pass.nextProbChild tree node).2.board.candidates
          node.hash) := by
  have written : ∀ state : NodeState,
      (pass.board.setState node.hash state).candidates node.hash =
        state.kind.candidates := by
    intro state
    apply Blackboard.candidates_eq
    rw [Blackboard.states_setState, if_pos rfl]
  unfold nextProbChild
  cases present : pass.board.states[node.hash]? with
  | none => exact .inl ⟨rfl, rfl⟩
  | some state =>
      dsimp only
      cases kind : state.kind with
      | prob weights available runningChild =>
          rw [Blackboard.candidates_eq present, kind]
          cases runningChild with
          | some index =>
              refine .inr ⟨index, rfl, rfl, ?_⟩
              change List.Perm _ (index ::
                (pass.board.setState node.hash _).candidates node.hash)
              rw [written]
              exact .refl _
          | none =>
              dsimp only
              cases isDrawn : draw available pass.board.stream with
              | none => exact .inl ⟨rfl, rfl⟩
              | some drawn =>
                  refine .inr ⟨drawn.index, rfl, rfl, ?_⟩
                  change List.Perm _ (drawn.index ::
                    (pass.board.setState node.hash _).candidates node.hash)
                  rw [written]
                  exact perm_of_draw isDrawn
      | _ => exact .inl ⟨rfl, rfl⟩

theorem states_updateKind (pass : Pass α) (tree : Tree) (node : Node)
    {change : KindState → Option KindState} {kind : KindState}
    (changed : change (pass.board.stateFor tree node).kind = some kind) :
    (pass.updateKind tree node change).board.states[node.hash]? =
      some { pass.board.stateFor tree node with kind } := by
  have ensures : Writes tree node [] (pass.board.stateFor tree node) pass
      (pass.ensureState tree node).2 := Writes.updateState pass id
  have ensured := ensures.stateFor (Blackboard.fits_stateFor _ _ _)
  have writes : Writes tree node [] _ (pass.ensureState tree node).2 _ :=
    Writes.updateState _ fun state => { state with kind }
  rw [updateKind_of_some changed, writes.here, ensured]

/-- Recording the running child keeps what is left of the pool. -/
theorem recordProb_cases {index : Nat}
    (prob : node.kind = .probSequence ∨ node.kind = .probSelector)
    (recorded : PassM.recordProb tree node index before = some ((), after)) :
    ∃ pool, after.board.candidates node.hash = index :: pool ∧
      pool.Sublist (before.board.candidates node.hash) := by
  have fits := Blackboard.fits_stateFor before.board tree node
  have among := Blackboard.candidates_stateFor before.board tree node
  cases kind : (before.board.stateFor tree node).kind with
  | prob weights pool runningChild =>
      rw [kind] at among
      refine ⟨pool.map Prod.fst, ?_,
        (List.sublist_append_right _ _).trans among⟩
      let change : KindState → Option KindState
        | .prob weights available _ =>
          some (.prob weights available (some index))
        | _ => none
      have changed : change (before.board.stateFor tree node).kind =
          some (.prob weights pool (some index)) := by
        rw [kind]
      have records : after = before.updateKind tree node change := by
        cases recorded
        rfl
      rw [records,
        Blackboard.candidates_eq (states_updateKind before tree node changed)]
      rfl
  | _ =>
      rw [kind] at fits
      rcases prob with isKind | isKind <;>
        simp [isKind, KindState.fits, KindState.shape,
          NodeKind.stateShape] at fits

theorem candidates_closedKind (kind : KindState) :
    (closedKind kind).candidates = [] := by
  cases kind <;> rfl

theorem map_fst_fullPool (tree : Tree) (weights : Std.ExtTreeMap NodeHash Float)
    (children : List NodeHash) :
    (fullPool tree weights children).map Prod.fst =
      List.range children.length := by
  apply List.ext_getElem
  · simp [fullPool]
  · intro index _ _
    simp [fullPool]

theorem nodup_openedKind (tree : Tree) (node : Node) (kind : KindState) :
    (openedKind tree node kind).candidates.Nodup := by
  cases kind with
  | prob weights pool runningChild =>
      change ((fullPool tree weights node.children).map Prod.fst).Nodup
      rw [map_fst_fullPool]
      exact List.nodup_range
  | _ => exact List.nodup_nil

theorem lt_of_mem_openedKind {tree : Tree} {node : Node} {kind : KindState}
    {index : Nat} (member : index ∈ (openedKind tree node kind).candidates) :
    index < node.children.length := by
  cases kind with
  | prob weights pool runningChild =>
      change index ∈ (fullPool tree weights node.children).map Prod.fst at member
      rw [map_fst_fullPool] at member
      exact List.mem_range.mp member
  | _ => cases member

theorem Enters.nodup_candidates (enters : Enters tree node before after)
    (tidy : before.board.Tidy node.hash) :
    (after.board.candidates node.hash).Nodup := by
  obtain ⟨state, present, _, kind⟩ := enters.here
  rw [Blackboard.candidates_eq present, kind]
  split
  · next running => exact tidy.stateFor tree running
  · exact nodup_openedKind tree node _

theorem Enters.tidy {hash : NodeHash} (enters : Enters tree node before after)
    (tidy : before.board.Tidy hash) : after.board.Tidy hash := by
  by_cases same : hash = node.hash
  · subst same
    exact Blackboard.tidy_of_nodup (enters.nodup_candidates tidy)
  · exact Blackboard.tidy_congr (enters.elsewhere same) tidy

theorem Leaves.tidy {status : Status}
    (leaves : Leaves tree node status before after)
    (distinct : (before.board.stateFor tree node).kind.candidates.Nodup) :
    after.board.Tidy node.hash := by
  obtain ⟨state, present, _, kind⟩ := leaves.here
  apply Blackboard.tidy_of_nodup
  rw [Blackboard.candidates_eq present, kind]
  split
  · exact distinct
  · rw [candidates_closedKind]
    exact List.nodup_nil

theorem Aside.tidy {hash : NodeHash} (aside : Aside tree node before after)
    (apart : hash = node.hash →
      ¬ (node.kind = .probSequence ∨ node.kind = .probSelector))
    (tidy : before.board.Tidy hash) : after.board.Tidy hash := by
  by_cases same : hash = node.hash
  · subst same
    rcases aside.here with same | ⟨state, present, _, fits⟩
    · exact Blackboard.tidy_congr same tidy
    · apply Blackboard.tidy_of_nodup
      rw [Blackboard.candidates_eq present,
        KindState.candidates_of_not_prob fits (apart rfl)]
      exact List.nodup_nil
  · exact Blackboard.tidy_congr (aside.elsewhere same) tidy

end Pass

end BehaviorTree
