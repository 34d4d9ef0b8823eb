import BehaviorTree.Proofs.Handler.Soundness
import BehaviorTree.Proofs.Pass.Confining

/-!
# Ticks within what setup seeded

Setup seeds the nodes that the walk from the bound tree meets.  The ticks after
it stay within that walk, however they jump: no other node is ticked or closed,
no state comes or goes, and a state outside the walk is never written to.
-/

namespace BehaviorTree

open BehaviorTree.Pass

variable {α : Type} {forest : Forest} {start board : Blackboard} {id : TreeId}
  {walk : List NodeRef}

/-- A blackboard that differs from another one only in the states of a walk that
were there before. -/
structure Blackboard.Within (walk : List NodeRef) (board start : Blackboard) :
    Prop where
  runningNow : ∀ ref ∈ board.runningNow, ref ∈ walk
  runningPre : ∀ ref ∈ board.runningPre, ref ∈ walk
  elsewhere : ∀ {hash : NodeHash}, (∀ ref ∈ walk, ref.hash ≠ hash) →
    board.states[hash]? = start.states[hash]?
  present : ∀ hash, hash ∈ board.states ↔ hash ∈ start.states

namespace Blackboard.Within

theorem of_idle (idle : start.Idle) : start.Within walk start where
  runningNow := by simp [idle.runningNow]
  runningPre := by simp [idle.runningPre]
  elsewhere _ := rfl
  present _ := .rfl

/-- A confined stretch that starts with the states of a blackboard finds the
state of every node that it writes to, so it adds none. -/
theorem confined {before after : Pass α} (within : board.Within walk start)
    (seeded : ∀ ref ∈ walk, ref.hash ∈ start.states)
    (states : before.board.states = board.states)
    (runningNow : before.board.runningNow = [])
    (runningPre : before.board.runningPre = board.runningNow)
    (confines : Confines walk before after) :
    after.board.Within walk start where
  runningNow ref member := by
    rcases confines.runningNow ref member with earlier | met
    · rw [runningNow] at earlier
      cases earlier
    · exact met
  runningPre ref member := by
    rw [confines.runningPre, runningPre] at member
    exact within.runningNow ref member
  elsewhere apart := by
    rw [confines.elsewhere apart, states, within.elsewhere apart]
  present hash := by
    constructor
    · intro isPresent
      by_cases apart : ∀ ref ∈ walk, ref.hash ≠ hash
      · rw [mem_states_iff, confines.elsewhere apart, states, ← mem_states_iff]
          at isPresent
        exact (within.present hash).mp isPresent
      · push Not at apart
        obtain ⟨ref, met, rfl⟩ := apart
        exact seeded ref met
    · intro isPresent
      apply confines.present
      rw [states]
      exact (within.present hash).mpr isPresent

end Blackboard.Within

namespace Handler

variable {handler : Handler α} {agent : α} {fuel : Nat} {report : TickReport α}

/-- One tick stays within a closed walk that meets the root of the bound tree. -/
theorem confines_of_tick (wellFormed : forest.WellFormed)
    (closed : forest.ClosedWalk walk)
    (rootMet : ∀ tree, forest.get? board.tree = some tree →
      tree.refTo tree.rootNode ∈ walk)
    (within : board.Within walk start)
    (holds : handler.blackboard = some board)
    (ticked : tick fuel forest handler agent = some (.ok report)) :
    Confines walk ({ agent, board := board.beginTick } : Pass α)
      report.pass := by
  obtain ⟨tree, registered, rooted⟩ := (tick_eq_ok_iff holds).mp ticked
  have swept : Confines walk ({ agent, board := board.beginTick } : Pass α)
      (handler.rootPass forest board agent) :=
    @confines_abandonEach α (handler.setting forest) walk board.notRevisited
      wellFormed (fun ref member => within.runningPre ref
        (Blackboard.mem_notRevisited.mp member).1) _
  exact swept.trans (PassM.confines_of_tick wellFormed closed
    (wellFormed.located_root registered) (rootMet tree registered) rooted)

/-- What the ticks after setup leave alone. -/
structure Confined (walk : List NodeRef) (start : Blackboard)
    (report : TickReport α) : Prop where
  visits : ∀ activity ∈ report.pass.log, ∀ ref ∈ activity.subject, ref ∈ walk
  present : ∀ hash,
    hash ∈ report.pass.board.states ↔ hash ∈ start.states
  elsewhere : ∀ {hash : NodeHash}, (∀ ref ∈ walk, ref.hash ≠ hash) →
    report.pass.board.states[hash]? = start.states[hash]?

section Confined

variable (wellFormed : forest.WellFormed) (isScoped : forest.Scoped)
  (filled : forest.Filled id) (closed : forest.ClosedWalk walk)
  (rootMet : ∀ tree, forest.get? id = some tree →
    tree.refTo tree.rootNode ∈ walk)
  (seeded : ∀ ref ∈ walk, ref.hash ∈ start.states)
include wellFormed isScoped filled closed rootMet seeded

theorem confined_of_run {reports : List (TickReport α)}
    (run : Run forest board reports) (ready : board.Ready forest id)
    (within : board.Within walk start) :
    ∀ report ∈ reports, Confined walk start report := by
  induction run with
  | done => simp
  | @tick board _ handler agent report later holds ticked _ induction =>
      have confines := confines_of_tick wellFormed closed
        (fun tree registered => rootMet tree (ready.bound ▸ registered)) within
        holds ticked
      have goesOn := within.confined seeded rfl rfl rfl confines
      have stays : Confined walk start report := by
        refine ⟨?_, goesOn.present, goesOn.elsewhere⟩
        obtain ⟨growth, log, visits⟩ := confines.log
        rw [log]
        exact visits
      have goesOnReady :=
        (ready_of_tick wellFormed isScoped filled ready holds ticked).1
      intro other member
      rcases List.mem_cons.mp member with rfl | member
      · exact stays
      · exact induction goesOnReady goesOn other member

end Confined

/-- After a successful setup ticks stay within the walk from the bound tree:
they tick and close its nodes only, no state is added or dropped, and the states
outside the walk are those of the setup. -/
theorem confinement_of_run [Agent α] (wellFormed : forest.WellFormed)
    (isScoped : forest.Scoped) {selector : Option TreeSelector}
    {override : Bool} {previous : Handler α}
    (bound : (setup forest agent selector override).run previous =
      .ok id handler) (holds : handler.blackboard = some board)
    {reports : List (TickReport α)} (run : Run forest board reports) :
    ∀ report ∈ reports, Confined (forest.walkFollowing id) board report := by
  obtain ⟨ready, filled, tree, registered⟩ :=
    ready_of_setup wellFormed isScoped bound holds
  rw [setup_eq] at bound
  split at bound
  · cases bound
  · next chosen approved =>
      cases bound
      cases holds
      obtain ⟨isChosen, _⟩ := (approve_eq_ok_iff wellFormed).mp approved
      have registered := registered_choice wellFormed isChosen
      have isBound : Bound forest chosen agent
          (previous.boundBoard forest chosen agent override) :=
        bound_boundBoard wellFormed isScoped registered
      refine confined_of_run wellFormed isScoped filled
        (fun ref met next follows =>
          Forest.walkFollowing_closed wellFormed registered met follows)
        ?_ ?_ run ready (.of_idle isBound.idle)
      · intro other isOther
        rw [registered] at isOther
        cases isOther
        exact Forest.mem_walkFollowing_root wellFormed registered
      · intro ref met
        obtain ⟨⟨other, node, located, rfl⟩, reaches⟩ :=
          (Forest.mem_walkFollowing wellFormed registered).mp met
        obtain ⟨state, present, _⟩ := isBound.seeded located reaches
        exact mem_states_iff.mpr ⟨state, present⟩

/-- A tree that ticks itself again, level by level, ticks the four nodes of the
walk only, each several times. -/
theorem descent_confined :
    ∃ found board,
      gamble {} descent [0, 0] = some found ∧
      found.handler.blackboard = some board ∧
      (found.forest.walkFollowing found.id).length = 4 ∧
      found.reports.length = 2 ∧
      ∀ report ∈ found.reports,
        4 < report.pass.steps ∧
        Confined (found.forest.walkFollowing found.id) board report := by
  have checked : (gamble {} descent [0, 0]).any (fun found =>
      decide found.forest.Scoped &&
      decide ((found.forest.walkFollowing found.id).length = 4) &&
      decide (found.reports.length = 2) &&
      found.reports.all fun report => decide (4 < report.pass.steps)) = true := by
    decide +kernel
  obtain ⟨found, played, passed⟩ := (Option.any_eq_true _ _).mp checked
  simp only [Bool.and_eq_true, decide_eq_true_eq, List.all_eq_true] at passed
  obtain ⟨⟨⟨isScoped, four⟩, two⟩, several⟩ := passed
  obtain ⟨wellFormed, bound, board, holds, run⟩ := run_of_gamble played
  exact ⟨found, board, played, holds, four, two, fun report member =>
    ⟨several report member,
      confinement_of_run wellFormed isScoped bound holds run report member⟩⟩

end Handler

end BehaviorTree
