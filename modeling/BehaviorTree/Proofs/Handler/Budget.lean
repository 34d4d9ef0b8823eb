import BehaviorTree.Proofs.Handler.Failing
import BehaviorTree.Proofs.Handler.Run
import BehaviorTree.Proofs.Pass.Budget

/-!
# Step budgets of handlers

A budget that covers a tick leaves no mark on it.  Under a smaller one the tick
is the same up to the first node tick that is not covered; this one is refused,
recorded and the last.  Every tick of a handler has the whole budget.
-/

namespace BehaviorTree

open BehaviorTree.Pass

variable {α : Type}

theorem Pass.abandonEach_within (setting : Setting α) (budget : Option UInt64)
    (refs : List NodeRef) (pass : Pass α) :
    pass.abandonEach (setting.within budget) refs =
      pass.abandonEach setting refs := by
  induction refs generalizing pass with
  | nil => rfl
  | cons ref rest induction => exact induction _

namespace Handler

/-- The same handler with another step budget. -/
def within (handler : Handler α) (budget : Option UInt64) : Handler α :=
  { handler with
    config := { handler.config with maxStepsPerTick := budget } }

/-- A tick is the same as the one without a budget up to the first node tick
that the budget does not cover.  It refuses that one with a message that names the
budget and the node, ticks no other node and comes to an error. -/
structure CutShort (handler : Handler α) (board : Blackboard) (agent : α)
    (budget : UInt64) (whole cut : TickReport α) (ref : NodeRef) : Prop where
  status : cut.status = .error
  same : ∃ common rest later,
    whole.pass.log = common ++ .entered ref :: rest ∧
    cut.pass.log = common ++ .refused ref :: later ∧
    ∀ activity ∈ later, activity.isUnwinding = true
  next : (enteredNodes whole.pass.log)[budget.toNat]? = some ref
  entered : enteredNodes cut.pass.log =
    (enteredNodes whole.pass.log).take budget.toNat
  recorded : ∃ calls globals,
    handler.behaviors.Performs calls (agent, board.globals)
      (cut.pass.agent, globals) ∧
    Call.actions calls = ranActions cut.pass.log ∧
    cut.pass.board.globals =
      { globals with
        errors := globals.errors.push
          ("step budget of " ++ budget.toNat.repr ++ " exhausted at node " ++
            ref.hash.text) }
  untouched :
    (∀ other, .entered other ∈ cut.pass.log ∨ .abandoned other ∈ cut.pass.log →
      other.hash ≠ ref.hash) →
    cut.pass.board.states[ref.hash]? = board.states[ref.hash]?

theorem rootPass_within (handler : Handler α) (budget : Option UInt64)
    (forest : Forest) (board : Blackboard) (agent : α) :
    (handler.within budget).rootPass forest board agent =
      handler.rootPass forest board agent :=
  abandonEach_within (handler.setting forest) budget _ _

variable {fuel : Nat} {forest : Forest} {handler : Handler α}
  {board : Blackboard} {agent : α} {budget : UInt64} {whole : TickReport α}

theorem enteredNodes_sweep (swept : List NodeRef) :
    enteredNodes (sweep swept) = [] := by
  apply enteredNodes_eq_nil
  intro ref member
  simpa using mem_sweep.mp member

section Ticks

variable {tree : Tree} {status : Status} {after : Pass α}

theorem counts_of_rootPass
    (ran : PassM.tick ((handler.within none).setting forest) fuel tree
      tree.rootNode (handler.rootPass forest board agent) =
        some (status, after)) :
    after.steps = (enteredNodes after.log).length := by
  obtain ⟨swept, sweeps⟩ := handler.sweeps_rootPass forest board agent
  obtain ⟨growth, counts⟩ := PassM.counts_of_tick ran
  have tally := countP_isTick fun ref member => counts.limited ref member rfl
  have start : (handler.rootPass forest board agent).log = sweep swept :=
    sweeps.log
  rw [counts.steps, sweeps.steps, tally, counts.log, start,
    enteredNodes_append, enteredNodes_sweep, List.nil_append]
  exact Nat.zero_add _

/-- A state that a tick touches is that of a node which it enters or
abandons. -/
theorem untouched_of_rootPass {setting : Setting α} {hash : NodeHash}
    (ran : PassM.tick setting fuel tree tree.rootNode
      (handler.rootPass forest board agent) = some (status, after))
    (apart : ∀ other, .entered other ∈ after.log ∨ .abandoned other ∈ after.log →
      other.hash ≠ hash) :
    after.board.states[hash]? = board.states[hash]? := by
  obtain ⟨swept, sweeps⟩ := handler.sweeps_rootPass forest board agent
  obtain ⟨growth, counts⟩ := PassM.counts_of_tick ran
  rw [counts.elsewhere List.not_mem_nil, sweeps.elsewhere]
  · rfl
  · intro ref member
    apply apart ref
    right
    rw [counts.log, sweeps.log]
    apply List.mem_append_left
    apply List.mem_append_right
    exact mem_sweep.mpr ⟨ref, member, .inl rfl⟩
  · intro ref member
    apply apart ref
    left
    rw [counts.log]
    exact List.mem_append_right _ member

/-- Where two ticks of the root part, the second one is cut short. -/
theorem cutShort_of_parts {first : Status} {wholePass cut : Pass α}
    {ref : NodeRef} {common rest later : List Activity}
    (ran : PassM.tick ((handler.within (some budget)).setting forest) fuel tree
      tree.rootNode (handler.rootPass forest board agent) = some (.error, cut))
    (parts : Parts budget.toNat (handler.rootPass forest board agent) wholePass
      cut ref common rest later) :
    CutShort handler board agent budget ⟨first, wholePass⟩ ⟨.error, cut⟩ ref := by
  obtain ⟨swept, sweeps⟩ := handler.sweeps_rootPass forest board agent
  have start : (handler.rootPass forest board agent).log = sweep swept :=
    sweeps.log
  have starts : ((handler.rootPass forest board agent).agent,
      (handler.rootPass forest board agent).board.globals) =
      (agent, board.globals) :=
    congrArg₂ Prod.mk sweeps.reserved.agent sweeps.reserved.globals
  obtain ⟨growth, message, breaks⟩ :=
    (PassM.breaking_of_tick sweeps.reserved.exhausted ran).2 rfl
  obtain ⟨earlier, _, unwinding, rfl, collapses, raises, _⟩ := breaks.collapses
  obtain ⟨rfl, rfl, rfl⟩ := collapses.of_refused
    (List.append_cancel_left (breaks.log.symm.trans parts.cut))
  have whole : wholePass.log =
      (sweep swept ++ earlier) ++ .entered ref :: rest := by
    rw [parts.whole, start, List.append_assoc]
  have short : cut.log =
      (sweep swept ++ earlier) ++ .refused ref :: unwinding := by
    rw [parts.cut, start, List.append_assoc]
  have quiet : enteredNodes (.refused ref :: unwinding) = [] := by
    apply enteredNodes_eq_nil
    intro other member
    rcases List.mem_cons.mp member with same | unwinds
    · cases same
    · cases collapses.unwinds _ unwinds
  have steps : (enteredNodes (sweep swept ++ earlier)).length = budget.toNat := by
    rw [enteredNodes_append, enteredNodes_sweep, List.nil_append, ← parts.steps,
      sweeps.steps]
    exact (Nat.zero_add _).symm
  refine
    { status := rfl
      same := ⟨_, rest, unwinding, whole, short, collapses.unwinds⟩
      next := ?_
      entered := ?_
      recorded := ?_
      untouched := untouched_of_rootPass ran }
  · rw [whole, enteredNodes_append, ← steps, List.getElem?_append_right (Nat.le_refl _),
      Nat.sub_self]
    rfl
  · rw [whole, short, enteredNodes_append, quiet, List.append_nil,
      enteredNodes_append (sweep swept ++ earlier), ← steps]
    exact List.take_left.symm
  · obtain ⟨calls, globals, performed, actions, recorded⟩ := breaks.performs
    rw [starts] at performed
    refine ⟨calls, globals, performed, ?_, ?_⟩
    · rw [breaks.log, start, ranActions_append, ranActions_sweep,
        List.nil_append, actions]
    · cases raises with
      | refused limited =>
          cases limited
          exact recorded

end Ticks

/-- A tick without a budget is the tick under every budget that covers its node
ticks.  Under a smaller budget it is cut short. -/
theorem guarded_of_tick (holds : handler.blackboard = some board)
    (ticked : tick fuel forest (handler.within none) agent =
      some (.ok whole)) :
    whole.pass.steps = (enteredNodes whole.pass.log).length ∧
    (whole.pass.steps ≤ budget.toNat →
      tick fuel forest (handler.within (some budget)) agent =
        some (.ok whole)) ∧
    (budget.toNat < whole.pass.steps → ∃ cut ref,
      tick fuel forest (handler.within (some budget)) agent = some (.ok cut) ∧
      CutShort handler board agent budget whole cut ref) := by
  have bound : ∀ budget, (handler.within budget).blackboard = some board :=
    fun _ => holds
  obtain ⟨tree, registered, rooted⟩ := (tick_eq_ok_iff (bound none)).mp ticked
  obtain ⟨swept, sweeps⟩ := handler.sweeps_rootPass forest board agent
  rw [rootPass_within] at rooted
  have guarded : Guarded budget.toNat .error (handler.rootPass forest board agent)
      whole.status whole.pass _ :=
    PassM.guarded_of_tick rfl sweeps.reserved.exhausted
      (sweeps.steps ▸ Nat.zero_le _) rooted
  have reports : ∀ {report : TickReport α},
      PassM.tick ((handler.within (some budget)).setting forest) fuel tree
        tree.rootNode (handler.rootPass forest board agent) =
          some (report.status, report.pass) →
      tick fuel forest (handler.within (some budget)) agent =
        some (.ok report) := by
    intro report ran
    apply (tick_eq_ok_iff (bound (some budget))).mpr
    refine ⟨tree, registered, ?_⟩
    rw [rootPass_within]
    exact ran
  refine ⟨counts_of_rootPass rooted, fun covered => ?_, fun exceeds => ?_⟩
  · exact reports (guarded.covered covered)
  · obtain ⟨cut, isCut, ref, common, rest, later, parts⟩ :=
      guarded.exceeded exceeds
    exact ⟨⟨.error, cut⟩, ref, reports isCut, cutShort_of_parts isCut parts⟩

/-- Every tick of a run has the whole budget. -/
theorem tickEach_within {agents : List α} {reports : List (TickReport α)}
    (ticked : tickEach fuel forest (handler.within none) agents = some reports)
    (covered : ∀ report ∈ reports, report.pass.steps ≤ budget.toNat) :
    tickEach fuel forest (handler.within (some budget)) agents =
      some reports := by
  induction agents generalizing handler reports with
  | nil => exact ticked
  | cons agent rest induction =>
      rw [tickEach] at ticked ⊢
      split at ticked
      · next report first =>
          obtain ⟨later, others, rfl⟩ := Option.map_eq_some_iff.mp ticked
          obtain ⟨board, holds⟩ := holds_of_tick first
          replace holds : handler.blackboard = some board := holds
          have same : tick fuel forest (handler.within (some budget)) agent =
              some (.ok report) :=
            (guarded_of_tick holds first).2.1 (covered report List.mem_cons_self)
          have following := @induction
            { handler with blackboard := some report.pass.board } later others
            fun other member => covered other (List.mem_cons_of_mem _ member)
          rw [same]
          exact Option.map_eq_some_iff.mpr ⟨later, following, rfl⟩
      · cases ticked

theorem states_of_exceeded {pass : Pass α}
    (exceeded : budget.toNat ≤ pass.steps) (tree : Tree) (node : Node) :
    ∃ after, after.board.states = pass.board.states ∧ ∀ fuel,
      PassM.tick ((handler.within (some budget)).setting forest) (fuel + 1) tree
        node pass = some (.error, after) := by
  rcases PassM.tick_eq ((handler.within (some budget)).setting forest) tree node
    pass with ⟨covered, _⟩ | ⟨after, refuses, starts⟩
  · have within := covered budget rfl
    omega
  · exact ⟨after, refuses.states, starts⟩

/-- A step budget guards ticks and does nothing else.  A budget that covers a
tick leaves it as it is; a smaller one cuts it short at the first node tick that
it does not cover, which leaves all states alone.  Every tick of a run has the
whole budget. -/
theorem budget_guards (handler : Handler α) (forest : Forest) (fuel : Nat)
    (budget : UInt64) :
    (∀ board agent whole, handler.blackboard = some board →
      tick fuel forest (handler.within none) agent = some (.ok whole) →
      whole.pass.steps = (enteredNodes whole.pass.log).length ∧
      (whole.pass.steps ≤ budget.toNat →
        tick fuel forest (handler.within (some budget)) agent =
          some (.ok whole)) ∧
      (budget.toNat < whole.pass.steps → ∃ cut ref,
        tick fuel forest (handler.within (some budget)) agent =
          some (.ok cut) ∧
        CutShort handler board agent budget whole cut ref)) ∧
    (∀ (tree : Tree) (node : Node) (pass : Pass α), budget.toNat ≤ pass.steps →
      ∃ after, after.board.states = pass.board.states ∧ ∀ fuel,
        PassM.tick ((handler.within (some budget)).setting forest) (fuel + 1)
          tree node pass = some (.error, after)) ∧
    (∀ agents reports,
      tickEach fuel forest (handler.within none) agents = some reports →
      (∀ report ∈ reports, report.pass.steps ≤ budget.toNat) →
      tickEach fuel forest (handler.within (some budget)) agents =
        some reports) := by
  refine ⟨?_, ?_, ?_⟩
  · intro board agent whole holds ticked
    exact guarded_of_tick holds ticked
  · intro tree node pass exceeded
    exact states_of_exceeded exceeded tree node
  · intro agents reports ticked covered
    exact tickEach_within ticked covered

/-- The errand takes seven node ticks.  Four cover the way up to the shop, and
seven cover two errands as they cover one. -/
theorem errand_cut_short :
    ∃ (forest : Forest) (whole cut : TickReport UInt64) (ref : NodeRef)
      (reports : List (TickReport UInt64)),
      tick 20 forest (walker.within none) 0 = some (.ok whole) ∧
      whole.pass.steps = 7 ∧
      tick 20 forest (walker.within (some 4)) 0 = some (.ok cut) ∧
      CutShort walker (.new ⟨1⟩ 0 0 {}) 0 4 whole cut ref ∧
      tickEach 20 forest (walker.within (some 7)) [0, 0] = some reports ∧
      reports.length = 2 := by
  have checked : (Grove.run [] errandSteps).any (fun grove =>
      let forest := Forest.ofTrees grove
      (reported (tick 20 forest (walker.within none) 0)).any
        (·.pass.steps = 7) &&
      (tickEach 20 forest (walker.within none) [0, 0]).any fun reports =>
        reports.length = 2 && reports.all (·.pass.steps ≤ 7)) = true := by
    decide +kernel
  obtain ⟨grove, _, passed⟩ := (Option.any_eq_true _ _).mp checked
  obtain ⟨single, both⟩ := Bool.and_eq_true_iff.mp passed
  obtain ⟨whole, ticked, steps⟩ := (Option.any_eq_true _ _).mp single
  obtain ⟨reports, run, passed⟩ := (Option.any_eq_true _ _).mp both
  obtain ⟨two, covered⟩ := Bool.and_eq_true_iff.mp passed
  rw [reported_eq_some_iff] at ticked
  have isSeven := of_decide_eq_true steps
  obtain ⟨single, _, _⟩ := budget_guards walker (Forest.ofTrees grove) 20 4
  obtain ⟨_, _, each⟩ := budget_guards walker (Forest.ofTrees grove) 20 7
  obtain ⟨cut, ref, isCut, cutShort⟩ :=
    (single _ 0 whole rfl ticked).2.2 (by rw [isSeven]; decide)
  have covers : ∀ report ∈ reports, report.pass.steps ≤ (7 : UInt64).toNat :=
    fun report member =>
      of_decide_eq_true (List.all_eq_true.mp covered report member)
  exact ⟨_, whole, cut, ref, reports, ticked, isSeven, isCut, cutShort,
    each _ _ run covers, of_decide_eq_true two⟩

end Handler

end BehaviorTree
