import BehaviorTree.Proofs.Pass.Failing

/-!
# Step budgets

A budget guards a pass and does nothing else.  Up to the first tick that it does
not cover, a pass under a budget is the one without: both update nodes by the
same scripts.  That tick is refused, and as updates fail fast it is the last.
-/

namespace BehaviorTree

open BehaviorTree.Pass

/-- The nodes that a log says were entered, in order. -/
def enteredNodes : List Activity → List NodeRef
  | [] => []
  | .entered ref :: rest => ref :: enteredNodes rest
  | _ :: rest => enteredNodes rest

theorem enteredNodes_append (first second : List Activity) :
    enteredNodes (first ++ second) = enteredNodes first ++ enteredNodes second := by
  induction first with
  | nil => rfl
  | cons activity rest induction =>
      cases activity with
      | entered => exact congrArg _ induction
      | _ => exact induction

theorem mem_enteredNodes {log : List Activity} {ref : NodeRef} :
    ref ∈ enteredNodes log ↔ .entered ref ∈ log := by
  induction log with
  | nil => simp [enteredNodes]
  | cons activity rest induction =>
      cases activity with
      | entered other => simp [enteredNodes, induction]
      | _ => simpa [enteredNodes] using induction

theorem enteredNodes_eq_nil {log : List Activity}
    (none : ∀ ref, .entered ref ∉ log) : enteredNodes log = [] :=
  List.eq_nil_iff_forall_not_mem.mpr fun ref member =>
    none ref (mem_enteredNodes.mp member)

/-- An entry of a tick, within the budget or beyond it. -/
def Activity.isTick : Activity → Bool
  | entered _ => true
  | refused _ => true
  | _ => false

theorem countP_isTick {log : List Activity} (covered : ∀ ref, .refused ref ∉ log) :
    log.countP Activity.isTick = (enteredNodes log).length := by
  induction log with
  | nil => rfl
  | cons activity rest induction =>
      have rests := induction fun ref member =>
        covered ref (List.mem_cons_of_mem _ member)
      cases activity with
      | entered =>
          rw [List.countP_cons_of_pos rfl, rests]
          rfl
      | refused ref => exact absurd List.mem_cons_self (covered ref)
      | _ =>
          rw [List.countP_cons_of_neg Bool.false_ne_true, rests]
          rfl

variable {α : Type}

namespace Pass

/-- A stretch counts its ticks, and touches no states but those of the nodes
that it enters and of the given hashes. -/
structure Counts (setting : Setting α) (touched : List NodeHash)
    (before after : Pass α) (growth : List Activity) : Prop where
  log : after.log = before.log ++ growth
  steps : after.steps = before.steps + growth.countP Activity.isTick
  limited : ∀ ref, .refused ref ∈ growth → setting.config.maxStepsPerTick ≠ none
  exhausted : (∀ ref, .refused ref ∉ growth) → after.exhausted = before.exhausted
  elsewhere : ∀ {hash : NodeHash}, hash ∉ touched →
    (∀ ref, .entered ref ∈ growth → ref.hash ≠ hash) →
    after.board.states[hash]? = before.board.states[hash]?

namespace Counts

variable {setting : Setting α} {tree : Tree} {node : Node}
  {touched : List NodeHash} {before middle after : Pass α}
  {growth further : List Activity}

theorem trans (first : Counts setting touched before middle growth)
    (second : Counts setting touched middle after further) :
    Counts setting touched before after (growth ++ further) where
  log := by rw [second.log, first.log, List.append_assoc]
  steps := by
    rw [second.steps, first.steps, List.countP_append, Nat.add_assoc]
  limited ref member :=
    (List.mem_append.mp member).elim (first.limited ref) (second.limited ref)
  exhausted covered :=
    (second.exhausted fun ref member =>
      covered ref (List.mem_append_right _ member)).trans
      (first.exhausted fun ref member =>
        covered ref (List.mem_append_left _ member))
  elsewhere outside apart :=
    (second.elsewhere outside fun ref member =>
      apart ref (List.mem_append_right _ member)).trans
      (first.elsewhere outside fun ref member =>
        apart ref (List.mem_append_left _ member))

theorem fresh (free : setting.config.maxStepsPerTick = none)
    (counts : Counts setting touched before after growth)
    (fresh : before.exhausted = false) : after.exhausted = false :=
  (counts.exhausted fun ref member => counts.limited ref member free).trans fresh

theorem mono {others : List NodeHash} (subset : touched ⊆ others)
    (counts : Counts setting touched before after growth) :
    Counts setting others before after growth :=
  { counts with
    elsewhere := fun outside =>
      counts.elsewhere fun member => outside (subset member) }

theorem of_silent (log : after.log = before.log)
    (steps : after.steps = before.steps)
    (exhausted : after.exhausted = before.exhausted)
    (states : after.board.states = before.board.states) :
    Counts setting touched before after [] where
  log := by rw [log, List.append_nil]
  steps := steps
  limited := nofun
  exhausted _ := exhausted
  elsewhere _ _ := by rw [states]

theorem of_act (act : Act setting tree node before after) :
    ∃ growth, Counts setting [node.hash] before after growth := by
  have aside := act.aside
  obtain ⟨remarks, log, areRemarks⟩ := aside.log
  refine ⟨remarks, log, ?_, fun ref member => ?_, fun _ => ?_, fun outside _ => ?_⟩
  · rw [aside.steps, List.countP_eq_zero.mpr]
    · rfl
    · intro activity member
      have remark := areRemarks activity member
      cases activity with
      | entered => cases remark
      | refused => cases remark
      | _ => exact Bool.false_ne_true
  · cases areRemarks _ member
  · cases act with
    | move move => exact move.reserved.exhausted
    | ask => rfl
    | run => rfl
  · exact aside.elsewhere fun same => outside (List.mem_singleton.mpr same)

theorem of_acts (acts : Acts setting tree node before after) :
    ∃ growth, Counts setting [node.hash] before after growth := by
  induction acts with
  | refl => exact ⟨[], of_silent rfl rfl rfl rfl⟩
  | tail _ act induction =>
      obtain ⟨growth, counts⟩ := induction
      obtain ⟨further, next⟩ := of_act act
      exact ⟨growth ++ further, counts.trans next⟩

section Ways

variable {next : Tree} {child : Node} {start : Pass α} {back : Pass α → Pass α}

theorem of_start (way : Way setting tree node before next child start back) :
    Counts setting touched before start [] := by
  cases way with
  | child => exact of_silent rfl rfl rfl rfl
  | jump => exact of_silent rfl rfl rfl rfl

theorem of_back (way : Way setting tree node before next child start back)
    (after : Pass α) : Counts setting touched after (back after) [] := by
  cases way with
  | child => exact of_silent rfl rfl rfl rfl
  | jump => exact of_silent rfl rfl rfl rfl

end Ways

variable (setting tree node)

/-- Entering a node within the budget. -/
theorem enter (before : Pass α) : ∃ opening,
    Counts setting [node.hash] before
      (PassM.enter setting tree node (before.accept (tree.refTo node)))
      (.entered (tree.refTo node) :: opening) := by
  have enters : Enters tree node before
      (PassM.enter setting tree node (before.accept (tree.refTo node))) :=
    PassM.enters_enter setting tree node before
  obtain ⟨_, _, around⟩ := brackets setting tree node .success before before
  refine ⟨_, around.log, ?_, fun ref member => ?_, fun _ =>
    around.entering.exhausted, fun outside _ => ?_⟩
  · rw [enters.steps, List.countP_cons_of_pos rfl, List.countP_eq_zero.mpr]
    intro activity member
    rw [around.opens activity member]
    exact Bool.false_ne_true
  · rcases List.mem_cons.mp member with same | isOpening
    · cases same
    · cases around.opens _ isOpening
  · exact enters.elsewhere fun same => outside (List.mem_singleton.mpr same)

theorem leave (status : Status) (body : Pass α) : ∃ closing,
    Counts setting [node.hash] body (PassM.leave setting tree node status body)
      (.finished (tree.refTo node) status :: closing) := by
  have leaves := PassM.leaves_leave setting tree node status body
  obtain ⟨_, _, around⟩ := brackets setting tree node status body body
  refine ⟨_, around.endLog, ?_, fun ref member => ?_, fun _ =>
    around.leaving.exhausted, fun outside _ => ?_⟩
  · rw [leaves.steps, List.countP_eq_zero.mpr]
    · rfl
    · intro activity member
      rcases List.mem_cons.mp member with rfl | isClosing
      · exact Bool.false_ne_true
      · rw [around.closes activity isClosing]
        exact Bool.false_ne_true
  · rcases List.mem_cons.mp member with same | isClosing
    · cases same
    · cases around.closes _ isClosing
  · exact leaves.elsewhere fun same => outside (List.mem_singleton.mpr same)

end Counts

end Pass

variable {setting : Setting α} {tree : Tree} {node : Node}
  {before after : Pass α}

theorem Script.FailFast.counts {β : Type} {bad value : β}
    {visit : PassM.Visit α} {script : Script α β}
    (visits : ∀ {next child start status after},
      visit next child start = some (status, after) →
      ∃ growth, Counts setting [] start after growth)
    (failFast : script.FailFast setting tree node bad before)
    (ended : script.run visit = some (value, after)) :
    ∃ growth, Counts setting [node.hash] before after growth := by
  induction failFast with
  | outOfFuel => cases ended
  | done acts _ =>
      cases ended
      exact Counts.of_acts acts
  | fail _ reaches _ =>
      cases ended
      obtain ⟨growth, counts⟩ := Counts.of_acts reaches
      exact ⟨growth ++ [], counts.trans (.of_silent rfl rfl rfl rfl)⟩
  | tick acts way _ ends induction =>
      obtain ⟨⟨status, middle⟩, visited, ended⟩ :=
        Option.bind_eq_some_iff.mp ended
      obtain ⟨growth, counts⟩ := Counts.of_acts acts
      obtain ⟨further, visit⟩ := visits visited
      have whole := ((counts.trans (.of_start way)).trans
        (visit.mono (List.nil_subset _))).trans (.of_back way middle)
      by_cases good : status = .error
      · subst good
        obtain ⟨moved, moves, isDone⟩ := ends middle
        rw [isDone] at ended
        cases ended
        obtain ⟨_, rest⟩ := Counts.of_acts (moves.acts setting)
        exact ⟨_, whole.trans rest⟩
      · obtain ⟨_, rest⟩ := induction _ _ good ended
        exact ⟨_, whole.trans rest⟩

theorem PassM.counts_of_tick {fuel : Nat} {status : Status}
    (ended : tick setting fuel tree node before = some (status, after)) :
    ∃ growth, Counts setting [] before after growth := by
  induction fuel generalizing tree node before status after with
  | zero => cases ended
  | succ fuel induction =>
      by_cases covered : ∀ budget, setting.config.maxStepsPerTick = some budget →
          before.steps < budget.toNat
      · obtain ⟨script, body, _, failFast, runs, rfl⟩ :=
          script_of_tick covered ended
        obtain ⟨opening, enters⟩ := Counts.enter setting tree node before
        obtain ⟨growth, updates⟩ := failFast.counts induction runs
        obtain ⟨closing, leaves⟩ := Counts.leave setting tree node status body
        have whole := (enters.trans updates).trans leaves
        refine ⟨_, { whole with elsewhere := fun _ apart => ?_ }⟩
        refine whole.elsewhere (fun member => ?_) apart
        refine apart (tree.refTo node) ?_ (List.mem_singleton.mp member).symm
        simp
      · rcases tick_eq setting tree node before with
          ⟨isCovered, _⟩ | ⟨refused, refuses, starts⟩
        · exact absurd isCovered covered
        rw [starts] at ended
        cases ended
        push Not at covered
        obtain ⟨budget, limited, _⟩ := covered
        refine ⟨_, refuses.log, refuses.steps, fun _ _ => ?_, fun covers => ?_,
          fun _ _ => by rw [refuses.states]⟩
        · rw [limited]
          exact Option.some_ne_none budget
        · exact absurd (List.mem_singleton_self _) (covers (tree.refTo node))

/-- The same with another step budget. -/
def Setting.within (setting : Setting α) (budget : Option UInt64) : Setting α :=
  { setting with config := { setting.config with maxStepsPerTick := budget } }

namespace Pass

/-- Two stretches are the same up to a tick that the second one refuses, at the
end of the budget. -/
structure Parts (budget : Nat) (before whole cut : Pass α) (ref : NodeRef)
    (common rest later : List Activity) : Prop where
  whole : whole.log = before.log ++ (common ++ .entered ref :: rest)
  cut : cut.log = before.log ++ (common ++ .refused ref :: later)
  steps : before.steps + (enteredNodes common).length = budget

/-- What comes to `value` without a budget comes to it under a budget that
covers it, and else to `bad`. -/
structure Guarded {β : Type} (budget : Nat) (bad : β) (before : Pass α)
    (value : β) (after : Pass α) (bounded : Option (β × Pass α)) : Prop where
  covered : after.steps ≤ budget → bounded = some (value, after)
  exceeded : budget < after.steps → ∃ cut, bounded = some (bad, cut) ∧
    ∃ ref common rest later, Parts budget before after cut ref common rest later

namespace Parts

variable {setting : Setting α} {budget : Nat} {touched : List NodeHash}
  {before middle whole cut : Pass α} {ref : NodeRef}
  {common rest later growth : List Activity}

theorem prepend (free : setting.config.maxStepsPerTick = none)
    (counts : Counts setting touched before middle growth)
    (parts : Parts budget middle whole cut ref common rest later) :
    Parts budget before whole cut ref (growth ++ common) rest later where
  whole := by simp [parts.whole, counts.log]
  cut := by simp [parts.cut, counts.log]
  steps := by
    have tally := countP_isTick fun ref member => counts.limited ref member free
    have steps := parts.steps
    rw [counts.steps, tally] at steps
    rw [enteredNodes_append, List.length_append]
    omega

theorem append (parts : Parts budget before whole cut ref common rest later)
    {wholeEnd cutEnd : Pass α} {wholeGrowth cutGrowth : List Activity}
    (wholeLog : wholeEnd.log = whole.log ++ wholeGrowth)
    (cutLog : cutEnd.log = cut.log ++ cutGrowth) :
    Parts budget before wholeEnd cutEnd ref common (rest ++ wholeGrowth)
      (later ++ cutGrowth) where
  whole := by simp [wholeLog, parts.whole]
  cut := by simp [cutLog, parts.cut]
  steps := parts.steps

end Parts

end Pass

namespace Pass.Guarded

variable {β : Type} {bad value : β} {budget : Nat} {touched : List NodeHash}
  {growth : List Activity}

theorem prepend {middle : Pass α} {bounded : Option (β × Pass α)}
    (free : setting.config.maxStepsPerTick = none)
    (counts : Counts setting touched before middle growth)
    (guarded : Guarded budget bad middle value after bounded) :
    Guarded budget bad before value after bounded where
  covered := guarded.covered
  exceeded exceeds := by
    obtain ⟨cut, isCut, ref, common, rest, later, parts⟩ :=
      guarded.exceeded exceeds
    exact ⟨cut, isCut, ref, _, rest, later, parts.prepend free counts⟩

/-- Where the budget ends within a tick of an update, the update ends too. -/
theorem of_cut {origin start middle cut moved : Pass α} {next : Tree}
    {child : Node} {back : Pass α → Pass α} {ref : NodeRef}
    {common rest later : List Activity}
    (way : Way setting tree node origin next child start back)
    (parts : Parts budget start middle cut ref common rest later)
    (exceeds : budget < middle.steps)
    (counts : Counts setting [node.hash] (back middle) after growth)
    (moves : Moves tree node (back cut) moved) :
    Guarded budget bad start value after (some (bad, moved)) := by
  have cutBack : Counts setting [node.hash] cut (back cut) [] := .of_back way cut
  obtain ⟨_, unwinds⟩ := Counts.of_acts (moves.acts setting)
  have wholeEnd := (Counts.of_back way middle).trans counts
  refine ⟨fun covered => ?_, fun _ => ⟨moved, rfl, ref, common, _, _,
    parts.append wholeEnd.log (cutBack.trans unwinds).log⟩⟩
  have steps := wholeEnd.steps
  omega

/-- Where the budget ends within an update, its node is left. -/
theorem leave {status : Status} {body : Pass α}
    {bounded : Option (Status × Pass α)} (setting : Setting α) (tree : Tree)
    (node : Node)
    (guarded : Guarded budget .error before status body bounded) :
    Guarded budget .error before status
      (PassM.leave setting tree node status body)
      (bounded.map fun result =>
        (result.1, PassM.leave setting tree node result.1 result.2)) where
  covered inside := by
    rw [(PassM.leaves_leave setting tree node status body).steps] at inside
    rw [guarded.covered inside]
    rfl
  exceeded exceeds := by
    rw [(PassM.leaves_leave setting tree node status body).steps] at exceeds
    obtain ⟨cut, isCut, ref, common, rest, later, parts⟩ :=
      guarded.exceeded exceeds
    obtain ⟨_, wholeEnds⟩ := Counts.leave setting tree node status body
    obtain ⟨_, cutEnds⟩ := Counts.leave setting tree node .error cut
    refine ⟨PassM.leave setting tree node .error cut, ?_, ref, common, _, _,
      parts.append wholeEnds.log cutEnds.log⟩
    rw [isCut]
    rfl

end Pass.Guarded

theorem Script.FailFast.guarded {β : Type} {bad value : β} {budget : Nat}
    {visit bounded : PassM.Visit α} {script : Script α β}
    (free : setting.config.maxStepsPerTick = none)
    (counted : ∀ {next child start status after},
      visit next child start = some (status, after) →
      ∃ growth, Counts setting [] start after growth)
    (visits : ∀ {next child start status after}, start.exhausted = false →
      start.steps ≤ budget → visit next child start = some (status, after) →
      Guarded budget .error start status after (bounded next child start))
    (failFast : script.FailFast setting tree node bad before)
    (fresh : before.exhausted = false) (covered : before.steps ≤ budget)
    (ended : script.run visit = some (value, after)) :
    Guarded budget bad before value after (script.run bounded) := by
  induction failFast with
  | outOfFuel => cases ended
  | done acts _ =>
      cases ended
      have steps := acts.aside.steps
      exact ⟨fun _ => rfl, fun exceeds => by omega⟩
  | @fail _ _ failing message _ reaches _ =>
      cases ended
      have steps := reaches.aside.steps
      have same : (failing.addError message).steps = failing.steps := rfl
      exact ⟨fun _ => rfl, fun exceeds => by omega⟩
  | @tick before origin start next child back rest acts way goesOn ends induction =>
      obtain ⟨⟨status, middle⟩, visited, ended⟩ :=
        Option.bind_eq_some_iff.mp ended
      obtain ⟨_, counts⟩ := Counts.of_acts acts
      obtain ⟨_, visit⟩ := counted visited
      have begins := counts.trans (.of_start way)
      have leadsBack : Counts setting [node.hash] middle (back middle) [] :=
        .of_back way middle
      have whole := (begins.trans (visit.mono (List.nil_subset _))).trans leadsBack
      have startFresh : start.exhausted = false := begins.fresh free fresh
      have startSteps : start.steps = before.steps := by
        have starts : Counts setting [] origin start [] := .of_start way
        exact starts.steps.trans acts.aside.steps
      have backFresh : (back middle).exhausted = false := whole.fresh free fresh
      have backSteps : (back middle).steps = middle.steps := leadsBack.steps
      have goesOnCounting : ∃ growth,
          Counts setting [node.hash] (back middle) after growth := by
        by_cases good : status = .error
        · subst good
          obtain ⟨moved, moves, isDone⟩ := ends middle
          rw [isDone] at ended
          cases ended
          exact Counts.of_acts (moves.acts setting)
        · exact (goesOn status middle good).counts counted ended
      have guard := visits startFresh (startSteps ▸ covered) visited
      rw [Script.run]
      by_cases inside : middle.steps ≤ budget
      · rw [guard.covered inside, Option.bind_some]
        by_cases good : status = .error
        · subst good
          obtain ⟨moved, moves, isDone⟩ := ends middle
          dsimp only at ended ⊢
          rw [isDone] at ended ⊢
          cases ended
          have movedSteps := (moves.acts setting).aside.steps
          exact ⟨fun _ => rfl, fun exceeds => by omega⟩
        · exact (induction status middle good backFresh (by omega) ended).prepend
            free whole
      · have exceeds : budget < middle.steps := by omega
        obtain ⟨cut, isCut, ref, common, _, later, parts⟩ :=
          guard.exceeded exceeds
        obtain ⟨moved, moves, isDone⟩ := ends cut
        obtain ⟨_, counting⟩ := goesOnCounting
        rw [isCut, Option.bind_some]
        dsimp only
        rw [isDone]
        exact (Guarded.of_cut way parts exceeds counting moves).prepend free begins

/-- A tick within a budget is the tick without one, up to the end of the
budget. -/
theorem PassM.guarded_of_tick {budget : UInt64} {fuel : Nat} {status : Status}
    (free : setting.config.maxStepsPerTick = none)
    (fresh : before.exhausted = false) (covered : before.steps ≤ budget.toNat)
    (ended : tick setting fuel tree node before = some (status, after)) :
    Guarded budget.toNat .error before status after
      (tick (setting.within (some budget)) fuel tree node before) := by
  induction fuel generalizing tree node before status after with
  | zero => cases ended
  | succ fuel induction =>
      have unlimited : ∀ budget,
          setting.config.maxStepsPerTick = some budget →
          before.steps < budget.toNat := by
        intro other limited
        rw [free] at limited
        cases limited
      obtain ⟨script, body, isScript, failFast, runs, rfl⟩ :=
        script_of_tick unlimited ended
      obtain ⟨opening, enters⟩ := Counts.enter setting tree node before
      obtain ⟨growth, updates⟩ := failFast.counts counts_of_tick runs
      obtain ⟨closing, leaves⟩ := Counts.leave setting tree node status body
      have opens : (enter setting tree node
          (before.accept (tree.refTo node))).steps = before.steps + 1 :=
        (enters_enter setting tree node before).steps
      by_cases allowed : before.steps < budget.toNat
      · have bounded : tick (setting.within (some budget)) (fuel + 1) tree node
            before = (script.run (tick (setting.within (some budget)) fuel)).map
              fun result =>
                (result.1, leave setting tree node result.1 result.2) := by
          rw [tick_of_covered (by rintro _ ⟨⟩; exact allowed), ← isScript]
          rfl
        have guarded := failFast.guarded free counts_of_tick induction
          (enters.fresh free fresh) (opens ▸ allowed) runs
        rw [bounded]
        exact (guarded.prepend free enters).leave setting tree node
      · have spent : budget.toNat = before.steps := by omega
        have whole := (enters.trans updates).trans leaves
        have refused : tick (setting.within (some budget)) (fuel + 1) tree node
            before = some (.error, before.cut budget (tree.refTo node)) :=
          tick_of_exceeded rfl (Nat.le_of_eq spent) fresh fuel tree node
        refine ⟨fun inside => ?_, fun _ => ⟨_, refused, tree.refTo node, [], _, [],
          whole.log, log_note _ _, spent.symm⟩⟩
        have left := (leaves_leave setting tree node status body).steps
        have updating := updates.steps
        omega

end BehaviorTree
