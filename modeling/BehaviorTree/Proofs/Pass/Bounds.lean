import BehaviorTree.Proofs.Pass.Candidates
import BehaviorTree.Proofs.Pass.Ticking

/-!
# What bounds a tick

Every tick is counted, so a step budget bounds a pass.  Without one, a Prob
composite is bounded by its candidates: a tick below it that does not come to
`running` leaves no more of them than there were, unless a Parallel stands
between the composite and another node of its hash.
-/

namespace BehaviorTree

open BehaviorTree.Pass

variable {α : Type} {setting : Setting α} {tree : Tree} {node : Node}
  {before after : Pass α} {status : Status}

theorem Pass.Flow.depth
    (flow : Flow setting (fun _ _ before _ after => after.depth = before.depth)
      tree node before after) : after.depth = before.depth := by
  induction flow with
  | start => rfl
  | aside _ aside induction => rw [aside.depth, induction]
  | child _ _ _ ticked induction => rw [ticked, induction]
  | jump _ _ _ _ ticked induction =>
      change _ - 1 = _
      rw [ticked, Nat.add_sub_cancel, induction]

theorem PassM.depth_of_tick (wellFormed : setting.forest.WellFormed)
    {fuel : Nat} (located : setting.forest.Located tree node)
    (ended : tick setting fuel tree node before = some (status, after)) :
    after.depth = before.depth := by
  induction fuel generalizing tree node before status after with
  | zero => cases ended
  | succ fuel induction =>
      rcases tick_flow wellFormed located ended with
        ⟨_, refused⟩ | ⟨opened, body, enters, _, flow, leaves⟩
      · exact refused.depth
      · have flows : body.depth = opened.depth :=
          Flow.depth (flow.mono fun ⟨found, _, ticked, _⟩ =>
            induction found ticked)
        rw [leaves.depth, flows, enters.depth]

theorem Pass.Flow.steps_le
    (flow : Flow setting (fun _ _ before _ after => before.steps < after.steps)
      tree node before after) : before.steps ≤ after.steps := by
  induction flow with
  | start => exact Nat.le_refl _
  | aside _ aside induction => exact aside.steps.symm ▸ induction
  | child _ _ _ ticked induction =>
      exact Nat.le_trans induction (Nat.le_of_lt ticked)
  | jump _ _ _ _ ticked induction =>
      exact Nat.le_trans induction (Nat.le_of_lt ticked)

/-- Every tick is counted. -/
theorem PassM.steps_lt_of_tick (wellFormed : setting.forest.WellFormed)
    {fuel : Nat} (located : setting.forest.Located tree node)
    (ended : tick setting fuel tree node before = some (status, after)) :
    before.steps < after.steps := by
  induction fuel generalizing tree node before status after with
  | zero => cases ended
  | succ fuel induction =>
      rcases tick_flow wellFormed located ended with
        ⟨_, refused⟩ | ⟨opened, body, enters, _, flow, leaves⟩
      · rw [refused.steps]
        omega
      · have flows : opened.steps ≤ body.steps :=
          Flow.steps_le (flow.mono fun ⟨found, _, ticked, _⟩ =>
            induction found ticked)
        rw [leaves.steps]
        have entered := enters.steps
        omega

theorem PassM.covered_of_tick {fuel : Nat} {budget : UInt64}
    (budgeted : setting.config.maxStepsPerTick = some budget)
    (ended : tick setting fuel tree node before = some (status, after))
    (noError : status ≠ .error) : before.steps < budget.toNat := by
  cases fuel with
  | zero => cases ended
  | succ fuel =>
      rcases tick_eq setting tree node before with
        ⟨covered, _⟩ | ⟨refused, _, starts⟩
      · exact covered budget budgeted
      · rw [starts] at ended
        cases ended
        exact absurd rfl noError

/-- A way of one or more steps, down the trees and through Transitions. -/
def Forest.Leads (forest : Forest) : NodeRef → NodeRef → Prop :=
  Relation.TransGen fun ref next => next ∈ forest.childrenFollowing ref

/-- No Prob composite leads through a Parallel to a node of its own hash. -/
def Forest.Untangled (forest : Forest) : Prop :=
  ∀ (home : Tree) (composite : Node) (tree : Tree) (node : Node)
    (other : NodeRef),
    forest.Located home composite →
    composite.kind = .probSequence ∨ composite.kind = .probSelector →
    forest.Located tree node → node.kind.isParallel = true →
    forest.Leads (home.refTo composite) (tree.refTo node) →
    forest.Leads (tree.refTo node) other → other.hash ≠ composite.hash

theorem Pass.Flow.states_elsewhere {hash : NodeHash}
    (different : hash ≠ node.hash)
    (flow : Flow setting (fun _ _ before _ after =>
      after.board.states[hash]? = before.board.states[hash]?)
      tree node before after) :
    after.board.states[hash]? = before.board.states[hash]? := by
  induction flow with
  | start => rfl
  | aside _ aside induction => rw [aside.elsewhere different, induction]
  | child _ _ _ ticked induction => rw [ticked, induction]
  | jump _ _ _ _ ticked induction => exact ticked.trans induction

/-- A tick does not touch the states of hashes to which its node does not
lead. -/
theorem PassM.states_of_tick (wellFormed : setting.forest.WellFormed)
    {hash : NodeHash} {fuel : Nat}
    (located : setting.forest.Located tree node) (different : hash ≠ node.hash)
    (apart : ∀ other, setting.forest.Leads (tree.refTo node) other →
      other.hash ≠ hash)
    (ended : tick setting fuel tree node before = some (status, after)) :
    after.board.states[hash]? = before.board.states[hash]? := by
  induction fuel generalizing tree node before status after with
  | zero => cases ended
  | succ fuel induction =>
      rcases tick_flow wellFormed located ended with
        ⟨_, refused⟩ | ⟨opened, body, enters, _, flow, leaves⟩
      · rw [refused.states]
      have flows : body.board.states[hash]? = opened.board.states[hash]? := by
        refine Flow.states_elsewhere different (flow.mono ?_)
        intro next child _ _ _ ⟨found, follows, ticked, _⟩
        have elsewhere : (next.refTo child).hash ≠ hash :=
          apart _ (.single follows)
        exact induction found (Ne.symm elsewhere)
          (fun other leads => apart other (.head follows leads)) ticked
      rw [leaves.elsewhere different, flows, enters.elsewhere different]

/-- A tick comes to `running`, or the hash has no more candidates than
before. -/
def Pass.Calm (hash : NodeHash) (before : Pass α) (status : Status)
    (after : Pass α) : Prop :=
  status = .running ∨
    (after.board.candidates hash).length ≤
      (before.board.candidates hash).length

theorem Pass.Flow.calm {hash : NodeHash} (different : hash ≠ node.hash)
    (flow : Flow setting (fun _ _ before _ after =>
      (after.board.candidates hash).length ≤
        (before.board.candidates hash).length)
      tree node before after) :
    (after.board.candidates hash).length ≤
      (before.board.candidates hash).length := by
  induction flow with
  | start => exact Nat.le_refl _
  | aside _ aside induction =>
      rw [Blackboard.candidates_congr (aside.elsewhere different)]
      exact induction
  | child _ _ _ ticked induction => exact Nat.le_trans ticked induction
  | jump _ _ _ _ ticked induction => exact Nat.le_trans ticked induction

/-- Below a Prob composite all ticks are calm. -/
theorem PassM.calm_of_tick (wellFormed : setting.forest.WellFormed)
    (untangled : setting.forest.Untangled) {home : Tree} {composite : Node}
    (composed : setting.forest.Located home composite)
    (prob : composite.kind = .probSequence ∨ composite.kind = .probSelector)
    {fuel : Nat} (located : setting.forest.Located tree node)
    (leads : setting.forest.Leads (home.refTo composite) (tree.refTo node))
    (ended : tick setting fuel tree node before = some (status, after)) :
    Calm composite.hash before status after := by
  induction fuel generalizing tree node before status after with
  | zero => cases ended
  | succ fuel induction =>
      by_cases isParallel : composite.hash ≠ node.hash ∧
          node.kind.isParallel = true
      · right
        have states := states_of_tick wellFormed located isParallel.1
          (fun other => untangled home composite tree node other composed prob
            located isParallel.2 leads) ended
        exact Nat.le_of_eq
          (congrArg List.length (Blackboard.candidates_congr states))
      rcases tick_flow wellFormed located ended with
        ⟨_, refused⟩ | ⟨opened, body, enters, _, flow, leaves⟩
      · right
        have states : after.board.states[composite.hash]? =
            before.board.states[composite.hash]? := by
          rw [refused.states]
        exact Nat.le_of_eq
          (congrArg List.length (Blackboard.candidates_congr states))
      by_cases running : status = .running
      · exact .inl running
      right
      by_cases same : composite.hash = node.hash
      · obtain ⟨state, present, _, kind⟩ := leaves.here
        rw [same, Blackboard.candidates_eq present, kind, if_neg running,
          candidates_closedKind]
        exact Nat.zero_le _
      have flows : (body.board.candidates composite.hash).length ≤
          (opened.board.candidates composite.hash).length := by
        refine Flow.calm same (flow.mono ?_)
        intro next child _ found _ ⟨foundLocated, follows, ticked, calm⟩
        have notRunning : found ≠ .running := by
          rcases calm with parallel | isRunning | notRunning
          · exact absurd ⟨same, parallel⟩ isParallel
          · exact absurd isRunning running
          · exact notRunning
        exact (induction foundLocated (leads.tail follows) ticked).resolve_left
          notRunning
      rw [Blackboard.candidates_congr (leaves.elsewhere same)]
      rw [Blackboard.candidates_congr (enters.elsewhere same)] at flows
      exact flows

end BehaviorTree
