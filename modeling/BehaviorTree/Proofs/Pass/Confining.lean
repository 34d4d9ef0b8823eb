import BehaviorTree.Proofs.Forest.Walking

/-!
# Passes within a walk

A tick follows the same edges as the walk across Transitions: from a node to its
children, and from a Transition to the root of its target.  So a pass that starts
at a node of a closed walk ticks and closes nodes of the walk only, and leaves
the state of every other hash alone.  No state is dropped on the way.
-/

namespace BehaviorTree

/-- The node of whose lifecycle an entry speaks. -/
def Activity.subject : Activity → Option NodeRef
  | entered ref => some ref
  | refused ref => some ref
  | opened ref => some ref
  | finished ref _ => some ref
  | closed ref => some ref
  | abandoned ref => some ref
  | ran _ => none
  | misfit _ => none

theorem Activity.subject_of_isRemark {activity : Activity}
    (remark : activity.isRemark = true) : activity.subject = none := by
  cases activity with
  | ran => rfl
  | misfit => rfl
  | _ => cases remark

/-- With every node the walk has the nodes that follow it. -/
def Forest.ClosedWalk (forest : Forest) (walk : List NodeRef) : Prop :=
  ∀ ref ∈ walk, ∀ next ∈ forest.childrenFollowing ref, next ∈ walk

namespace Pass

variable {α : Type}

/-- A stretch of a pass that ticks, closes and writes to nodes of a walk only. -/
structure Confines (walk : List NodeRef) (before after : Pass α) : Prop where
  log : ∃ growth, after.log = before.log ++ growth ∧
    ∀ activity ∈ growth, ∀ ref ∈ activity.subject, ref ∈ walk
  elsewhere : ∀ {hash : NodeHash}, (∀ ref ∈ walk, ref.hash ≠ hash) →
    after.board.states[hash]? = before.board.states[hash]?
  present : ∀ {hash : NodeHash}, hash ∈ before.board.states →
    hash ∈ after.board.states
  runningNow : ∀ ref ∈ after.board.runningNow,
    ref ∈ before.board.runningNow ∨ ref ∈ walk
  runningPre : after.board.runningPre = before.board.runningPre

theorem mem_states_iff {board : Blackboard} {hash : NodeHash} :
    hash ∈ board.states ↔ ∃ state, board.states[hash]? = some state := by
  rw [Std.ExtTreeMap.mem_iff_isSome_getElem?, Option.isSome_iff_exists]

namespace Confines

variable {walk : List NodeRef} {tree : Tree} {node : Node}
  {before middle after : Pass α}

theorem refl : Confines walk before before where
  log := ⟨[], (List.append_nil _).symm, by simp⟩
  elsewhere _ := rfl
  present := id
  runningNow _ := .inl
  runningPre := rfl

theorem trans (first : Confines walk before middle)
    (second : Confines walk middle after) : Confines walk before after where
  log := by
    obtain ⟨earlier, firstLog, firstWithin⟩ := first.log
    obtain ⟨later, secondLog, secondWithin⟩ := second.log
    refine ⟨earlier ++ later, by rw [secondLog, firstLog, List.append_assoc], ?_⟩
    intro activity member
    rcases List.mem_append.mp member with member | member
    · exact firstWithin activity member
    · exact secondWithin activity member
  elsewhere apart := (second.elsewhere apart).trans (first.elsewhere apart)
  present isPresent := second.present (first.present isPresent)
  runningNow ref member := by
    rcases second.runningNow ref member with earlier | met
    · exact first.runningNow ref earlier
    · exact .inr met
  runningPre := second.runningPre.trans first.runningPre

/-- A stretch that writes to the state of one node of the walk. -/
theorem of_node (met : tree.refTo node ∈ walk) {growth : List Activity}
    (log : after.log = before.log ++ growth)
    (subjects : ∀ activity ∈ growth,
      ∀ ref ∈ activity.subject, ref = tree.refTo node)
    (elsewhere : ∀ {hash : NodeHash}, hash ≠ node.hash →
      after.board.states[hash]? = before.board.states[hash]?)
    (here : node.hash ∈ before.board.states → node.hash ∈ after.board.states)
    (runningNow : ∀ ref ∈ after.board.runningNow,
      ref ∈ before.board.runningNow ∨ ref = tree.refTo node)
    (runningPre : after.board.runningPre = before.board.runningPre) :
    Confines walk before after where
  log := by
    refine ⟨growth, log, fun activity member ref isSubject => ?_⟩
    rw [subjects activity member ref isSubject]
    exact met
  elsewhere apart := elsewhere (Ne.symm (apart _ met))
  present {hash} isPresent := by
    by_cases same : hash = node.hash
    · subst same
      exact here isPresent
    · rw [mem_states_iff] at isPresent ⊢
      rwa [elsewhere same]
  runningNow ref member :=
    (runningNow ref member).imp_right fun same => by rwa [same]
  runningPre := runningPre

theorem of_aside (met : tree.refTo node ∈ walk)
    (aside : Aside tree node before after) : Confines walk before after := by
  obtain ⟨remarks, log, areRemarks⟩ := aside.log
  refine of_node met log ?_ aside.elsewhere ?_ ?_ aside.runningPre
  · intro activity member ref isSubject
    rw [Activity.subject_of_isRemark (areRemarks activity member)] at isSubject
    cases isSubject
  · intro isPresent
    rw [mem_states_iff] at isPresent ⊢
    rcases aside.here with same | ⟨state, written, _, _⟩
    · rwa [same]
    · exact ⟨state, written⟩
  · rw [aside.runningNow]
    exact fun _ => .inl

theorem of_refuses (met : tree.refTo node ∈ walk)
    (refuses : Refuses tree node before after) : Confines walk before after := by
  refine of_node met refuses.log ?_ ?_ ?_ ?_ refuses.runningPre
  · simp [Activity.subject]
  · intro hash _
    rw [refuses.states]
  · rw [refuses.states]
    exact id
  · rw [refuses.runningNow]
    exact fun _ => .inl

theorem of_enters (met : tree.refTo node ∈ walk)
    (enters : Enters tree node before after) : Confines walk before after := by
  refine of_node met enters.log ?_ enters.elsewhere ?_ ?_ enters.runningPre
  · split <;> simp [Activity.subject]
  · obtain ⟨state, written, _⟩ := enters.here
    exact fun _ => mem_states_iff.mpr ⟨state, written⟩
  · rw [enters.runningNow]
    exact fun _ => .inl

theorem of_leaves {status : Status} (met : tree.refTo node ∈ walk)
    (leaves : Leaves tree node status before after) :
    Confines walk before after := by
  refine of_node met leaves.log ?_ leaves.elsewhere ?_ ?_ leaves.runningPre
  · split <;> simp [Activity.subject]
  · obtain ⟨state, written, _⟩ := leaves.here
    exact fun _ => mem_states_iff.mpr ⟨state, written⟩
  · rw [leaves.runningNow]
    split
    · intro ref member
      simpa using member
    · exact fun _ => .inl

theorem of_flow {setting : Setting α} (met : tree.refTo node ∈ walk)
    (flow : Flow setting (fun _ _ before _ after => Confines walk before after)
      tree node before after) : Confines walk before after := by
  induction flow with
  | start => exact refl
  | aside _ aside induction => exact induction.trans (of_aside met aside)
  | child _ _ _ ticked induction => exact induction.trans ticked
  | jump _ _ _ _ ticked induction =>
      exact induction.trans
        { log := ticked.log
          elsewhere := ticked.elsewhere
          present := ticked.present
          runningNow := ticked.runningNow
          runningPre := ticked.runningPre }

end Confines

/-- Closing what was running and not revisited stays within the walk, too. -/
theorem confines_abandonEach {setting : Setting α} {walk refs : List NodeRef}
    (wellFormed : setting.forest.WellFormed) (within : ∀ ref ∈ refs, ref ∈ walk)
    (pass : Pass α) : Confines walk pass (pass.abandonEach setting refs) := by
  obtain ⟨swept, abandons⟩ := abandons_abandonEach wellFormed refs pass
  have met : ∀ ref ∈ swept, ref ∈ walk := fun ref member =>
    within ref (abandons.among.subset member)
  refine ⟨⟨sweep swept, abandons.log, ?_⟩, ?_, ?_, ?_, abandons.runningPre⟩
  · intro activity member ref isSubject
    obtain ⟨other, isSwept, isEntry⟩ := List.mem_flatMap.mp member
    have same : ref = other := by
      simp only [List.mem_cons, List.not_mem_nil, or_false] at isEntry
      rcases isEntry with rfl | rfl <;> exact (Option.some.inj isSubject).symm
    exact same ▸ met other isSwept
  · exact fun apart => abandons.elsewhere fun ref member =>
      apart ref (met ref member)
  · intro hash isPresent
    refine abandonEach_keeps wellFormed (hash ∈ ·.board.states) ?_ refs isPresent
    intro pass tree node _ _ isPresent
    have writes := pass.writes_abandonNode setting.config tree node
    rw [mem_states_iff] at isPresent ⊢
    by_cases same : hash = node.hash
    · exact ⟨_, same ▸ writes.here⟩
    · rwa [writes.elsewhere same]
  · rw [abandons.runningNow]
    exact fun _ => .inl

end Pass

open BehaviorTree.Pass

/-- A tick of a node of a closed walk stays within the walk. -/
theorem PassM.confines_of_tick {α : Type} {setting : Setting α}
    {walk : List NodeRef} (wellFormed : setting.forest.WellFormed)
    (closed : setting.forest.ClosedWalk walk) {fuel : Nat} {tree : Tree}
    {node : Node} {before after : Pass α} {status : Status}
    (located : setting.forest.Located tree node)
    (met : tree.refTo node ∈ walk)
    (ended : tick setting fuel tree node before = some (status, after)) :
    Confines walk before after := by
  induction fuel generalizing tree node before after status with
  | zero => cases ended
  | succ fuel induction =>
      rcases tick_flow wellFormed located ended with
        ⟨_, refused⟩ | ⟨opened, body, enters, _, flow, leaves⟩
      · exact .of_refuses met refused
      have flowed : Confines walk opened body :=
        .of_flow met (flow.mono fun ⟨found, follows, ticked, _⟩ =>
          induction found (closed _ met _ follows) ticked)
      exact ((Confines.of_enters met enters).trans flowed).trans
        (.of_leaves met leaves)

end BehaviorTree
