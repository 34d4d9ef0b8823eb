import BehaviorTree.Proofs.Pass.Nesting
import BehaviorTree.Proofs.Pass.Script

/-!
# Errors

A tick that does not come to an error is smooth: it adds whole updates without
an error to the journal, and what it does to the agent and the globals is what
calls of behaviours do.  A tick that comes to an error breaks: it is smooth up to
the entry with which the error arises, records one message, and all updates under
way come to an error, the innermost first.
-/

namespace BehaviorTree

/-- The nodes whose updates are under way after a log, the innermost first, if
those of the stack were before it. -/
def underWay : List NodeRef → List Activity → List NodeRef
  | stack, [] => stack
  | stack, .entered ref :: rest => underWay (ref :: stack) rest
  | stack, .finished _ _ :: rest => underWay stack.tail rest
  | stack, _ :: rest => underWay stack rest

/-- The results that a log tells of. -/
def updateResults : List Activity → List (NodeRef × Status)
  | [] => []
  | .finished ref status :: rest => (ref, status) :: updateResults rest
  | _ :: rest => updateResults rest

/-- A tick beyond the budget, or an update that came to an error. -/
def Activity.isError : Activity → Bool
  | refused _ => true
  | finished _ .error => true
  | _ => false

/-- An entry of the end of updates: not of a tick, an opening or an action. -/
def Activity.isUnwinding : Activity → Bool
  | finished _ _ => true
  | closed _ => true
  | misfit _ => true
  | _ => false

/-- An error arises with the entry `first`, and all updates that are under way
come to it; nothing is ticked, opened or run any more. -/
structure Collapses (earlier : List Activity) (first : Activity)
    (later : List Activity) : Prop where
  calm : ∀ activity ∈ earlier, activity.isError = false
  unwinds : ∀ activity ∈ later, activity.isUnwinding = true
  results : updateResults (first :: later) =
    (underWay [] earlier).map fun ref => (ref, .error)

theorem underWay_append (stack : List NodeRef) (first second : List Activity) :
    underWay stack (first ++ second) = underWay (underWay stack first) second := by
  induction first generalizing stack with
  | nil => rfl
  | cons activity rest induction =>
      cases activity with
      | entered ref => exact induction (ref :: stack)
      | finished => exact induction stack.tail
      | _ => exact induction stack

theorem Nested.underWay_eq {log : List Activity} (nested : Nested log)
    (stack : List NodeRef) : underWay stack log = stack := by
  induction nested generalizing stack with
  | nil => rfl
  | @entry activity _ plain _ induction =>
      cases activity with
      | entered => cases plain
      | finished => cases plain
      | _ => exact induction stack
  | @update ref status inner rest _ _ innerInduction induction =>
      rw [underWay, underWay_append, innerInduction, underWay]
      exact induction stack

theorem updateResults_append (first second : List Activity) :
    updateResults (first ++ second) =
      updateResults first ++ updateResults second := by
  induction first with
  | nil => rfl
  | cons activity rest induction =>
      cases activity with
      | finished => exact congrArg _ induction
      | _ => exact induction

theorem updateResults_of_plain {log : List Activity}
    (plain : ∀ activity ∈ log, activity.isBracket = false) :
    updateResults log = [] := by
  induction log with
  | nil => rfl
  | cons activity rest induction =>
      have rests := induction fun other member =>
        plain other (List.mem_cons_of_mem _ member)
      cases activity with
      | finished => cases plain _ List.mem_cons_self
      | _ => exact rests

theorem ranActions_of_idle {log : List Activity}
    (idle : ∀ action, .ran action ∉ log) : ranActions log = [] := by
  induction log with
  | nil => rfl
  | cons activity rest induction =>
      have rests := induction fun action member =>
        idle action (List.mem_cons_of_mem _ member)
      cases activity with
      | ran action => exact absurd List.mem_cons_self (idle action)
      | _ => exact rests

theorem ranActions_of_unwinding {log : List Activity}
    (unwinds : ∀ activity ∈ log, activity.isUnwinding = true) :
    ranActions log = [] :=
  ranActions_of_idle fun action member => by cases unwinds _ member

/-- A refusal is the error that a log tells of. -/
theorem Collapses.of_refused {earlier common rest later : List Activity}
    {first : Activity} {ref : NodeRef} (collapses : Collapses earlier first later)
    (same : earlier ++ first :: later = common ++ .refused ref :: rest) :
    earlier = common ∧ first = .refused ref ∧ later = rest := by
  have notEarlier : .refused ref ∉ earlier := fun member => by
    cases collapses.calm _ member
  have notLater : .refused ref ∉ later := fun member => by
    cases collapses.unwinds _ member
  rcases List.append_eq_append_iff.mp same with
    ⟨between, isCommon, isLater⟩ | ⟨between, isEarlier, isRest⟩
  · cases between with
    | nil =>
        obtain ⟨isFirst, isRest⟩ := List.cons.inj isLater
        exact ⟨by rw [isCommon, List.append_nil], isFirst, isRest⟩
    | cons activity between =>
        obtain ⟨_, isLater⟩ := List.cons.inj isLater
        apply absurd _ notLater
        simp [isLater]
  · cases between with
    | nil =>
        obtain ⟨isFirst, isRest⟩ := List.cons.inj isRest
        exact ⟨by rw [isEarlier, List.append_nil], isFirst.symm, isRest.symm⟩
    | cons activity between =>
        obtain ⟨isFirst, _⟩ := List.cons.inj isRest
        apply absurd _ notEarlier
        simp [isEarlier, isFirst]

variable {α : Type}

/-- The entry with which an error arises, and the message that explains it. -/
inductive Raises (setting : Setting α) : Activity → String → Prop where
  | refused {budget : UInt64} {ref : NodeRef} :
      setting.config.maxStepsPerTick = some budget →
      Raises setting (.refused ref) (Pass.budgetMessage budget ref.hash)
  | failed {tree : Tree} {node : Node} {chosen failing : Pass α}
      {message : String} :
      Complaint setting tree node chosen failing message →
      Raises setting (.finished (tree.refTo node) .error) message

namespace Pass

section Lifecycle

variable (setting : Setting α) (tree : Tree) (node : Node) (pass : Pass α)

theorem Reserved.emitLifecycle (config : HandlerConfig) (tag : String) :
    Reserved pass (pass.emitLifecycle config tag node) := by
  unfold Pass.emitLifecycle
  split
  · exact ⟨rfl, rfl, rfl, rfl⟩
  · exact .refl

theorem Reserved.openNode (config : HandlerConfig) :
    Reserved pass (pass.openNode config tree node) := by
  have noted : Reserved pass (pass.note (.opened (tree.refTo node))) :=
    ⟨rfl, rfl, rfl, rfl⟩
  exact (noted.trans (emitLifecycle node _ config "bt.open")).trans
    (updateState _ tree node _)

theorem Reserved.closeNode (config : HandlerConfig) :
    Reserved pass (pass.closeNode config tree node) := by
  have noted : Reserved pass (pass.note (.closed (tree.refTo node))) :=
    ⟨rfl, rfl, rfl, rfl⟩
  exact (noted.trans (updateState _ tree node _)).trans
    (emitLifecycle node _ config "bt.close")

theorem Reserved.abandonNode (config : HandlerConfig) :
    Reserved pass (pass.abandonNode config tree node) := by
  have noted : Reserved pass (pass.note (.abandoned (tree.refTo node))) :=
    ⟨rfl, rfl, rfl, rfl⟩
  exact (noted.trans (emitLifecycle node _ config "bt.abandon")).trans
    (closeNode tree node _ config)

theorem Reserved.enter : Reserved pass (PassM.enter setting tree node pass) := by
  have counted : Reserved pass (pass.countTick tree node).2 :=
    updateState pass tree node _
  unfold PassM.enter
  dsimp only
  split
  · exact counted
  · exact counted.trans (openNode tree node _ setting.config)

theorem Reserved.leave (status : Status) :
    Reserved pass (PassM.leave setting tree node status pass) := by
  have finished : Reserved pass
      (pass.note (.finished (tree.refTo node) status)) := ⟨rfl, rfl, rfl, rfl⟩
  unfold PassM.leave
  dsimp only
  split
  · refine finished.trans ?_
    unfold Pass.keepRunning Blackboard.noteRunning
    dsimp only
    split
    · exact ⟨rfl, rfl, rfl, rfl⟩
    · exact ⟨rfl, rfl, rfl, rfl⟩
  · exact finished.trans (closeNode tree node _ setting.config)

end Lifecycle

/-- A stretch of a pass without an error. -/
structure Smooth (setting : Setting α) (before after : Pass α)
    (growth : List Activity) : Prop where
  log : after.log = before.log ++ growth
  nested : Nested growth
  calm : ∀ activity ∈ growth, activity.isError = false
  exhausted : after.exhausted = before.exhausted
  performs : ∃ calls,
    setting.behaviors.Performs calls (before.agent, before.board.globals)
      (after.agent, after.board.globals) ∧
    Call.actions calls = ranActions growth

namespace Smooth

variable {setting : Setting α} {tree : Tree} {node : Node}
  {before middle after : Pass α} {growth further : List Activity}

theorem trans (first : Smooth setting before middle growth)
    (second : Smooth setting middle after further) :
    Smooth setting before after (growth ++ further) where
  log := by rw [second.log, first.log, List.append_assoc]
  nested := first.nested.append second.nested
  calm activity member :=
    (List.mem_append.mp member).elim (first.calm activity)
      (second.calm activity)
  exhausted := second.exhausted.trans first.exhausted
  performs := by
    obtain ⟨calls, performed, actions⟩ := first.performs
    obtain ⟨others, performedOthers, otherActions⟩ := second.performs
    refine ⟨calls ++ others, performed.append performedOthers, ?_⟩
    rw [Call.actions_append, ranActions_append, actions, otherActions]

theorem of_reserved (reserved : Reserved before after)
    (log : after.log = before.log ++ growth) (nested : Nested growth)
    (calm : ∀ activity ∈ growth, activity.isError = false)
    (idle : ranActions growth = []) : Smooth setting before after growth where
  log := log
  nested := nested
  calm := calm
  exhausted := reserved.exhausted
  performs := ⟨[], by rw [reserved.agent, reserved.globals]; exact .done, idle.symm⟩

theorem of_depth (depth : Nat) :
    Smooth setting before { before with depth } [] :=
  of_reserved ⟨rfl, rfl, rfl, rfl⟩ (List.append_nil _).symm .nil nofun rfl

theorem of_act (act : Act setting tree node before after) :
    ∃ growth, Smooth setting before after growth := by
  cases act with
  | move move =>
      obtain ⟨count, log⟩ := move.log
      have plain : ∀ activity ∈ List.replicate count
          (Activity.misfit (tree.refTo node)), activity =
            .misfit (tree.refTo node) :=
        fun _ => List.eq_of_mem_replicate
      refine ⟨_, of_reserved move.reserved log (.of_entries ?_) ?_
        (ranActions_of_unwinding ?_)⟩
      all_goals
        intro activity member
        rw [plain activity member]
        rfl
  | ask predicate checked =>
      exact ⟨[], (List.append_nil _).symm, .nil, nofun, rfl, [.ask predicate],
        .of_check checked, rfl⟩
  | run action ran =>
      exact ⟨[.ran action], log_note _ _, .entry rfl .nil,
        by simp [Activity.isError], rfl, [.run action], .of_run ran, rfl⟩

theorem of_acts (acts : Acts setting tree node before after) :
    ∃ growth, Smooth setting before after growth := by
  induction acts with
  | refl => exact ⟨[], of_depth before.depth⟩
  | tail _ act induction =>
      obtain ⟨growth, smooth⟩ := induction
      obtain ⟨further, next⟩ := of_act act
      exact ⟨growth ++ further, smooth.trans next⟩

end Smooth

/-- A stretch of a pass in which an error arises: one message explains it, and
apart from that message the globals are those that the calls lead to. -/
structure Breaks (setting : Setting α) (before after : Pass α)
    (growth : List Activity) (message : String) : Prop where
  log : after.log = before.log ++ growth
  collapses : ∃ earlier first later, growth = earlier ++ first :: later ∧
    Collapses earlier first later ∧ Raises setting first message ∧
    ∀ stack, underWay stack earlier = underWay [] earlier ++ stack
  performs : ∃ calls globals,
    setting.behaviors.Performs calls (before.agent, before.board.globals)
      (after.agent, globals) ∧
    Call.actions calls = ranActions growth ∧
    after.board.globals = globals.addError message

namespace Breaks

variable {setting : Setting α} {tree : Tree} {node : Node}
  {before middle after : Pass α} {growth further : List Activity}
  {message : String}

theorem prepend (smooth : Smooth setting before middle growth)
    (breaks : Breaks setting middle after further message) :
    Breaks setting before after (growth ++ further) message where
  log := by rw [breaks.log, smooth.log, List.append_assoc]
  collapses := by
    obtain ⟨earlier, first, later, rfl, collapses, raises, onTop⟩ :=
      breaks.collapses
    have skips : ∀ stack, underWay stack (growth ++ earlier) =
        underWay stack earlier := fun stack => by
      rw [underWay_append, smooth.nested.underWay_eq]
    refine ⟨growth ++ earlier, first, later, (List.append_assoc _ _ _).symm,
      ⟨?_, collapses.unwinds, ?_⟩, raises, fun stack => ?_⟩
    · intro activity member
      exact (List.mem_append.mp member).elim (smooth.calm activity)
        (collapses.calm activity)
    · rw [skips, collapses.results]
    · rw [skips, skips, onTop]
  performs := by
    obtain ⟨calls, performed, actions⟩ := smooth.performs
    obtain ⟨others, globals, performedOthers, otherActions, recorded⟩ :=
      breaks.performs
    refine ⟨calls ++ others, globals, performed.append performedOthers, ?_, recorded⟩
    rw [Call.actions_append, ranActions_append, actions, otherActions]

/-- Unwinding goes on for a while. -/
theorem append (breaks : Breaks setting before middle growth message)
    (reserved : Reserved middle after)
    (log : after.log = middle.log ++ further)
    (unwinds : ∀ activity ∈ further, activity.isUnwinding = true)
    (silent : updateResults further = []) :
    Breaks setting before after (growth ++ further) message where
  log := by rw [log, breaks.log, List.append_assoc]
  collapses := by
    obtain ⟨earlier, first, later, rfl, collapses, raises, onTop⟩ :=
      breaks.collapses
    refine ⟨earlier, first, later ++ further, List.append_assoc _ _ _,
      ⟨collapses.calm, ?_, ?_⟩, raises, onTop⟩
    · intro activity member
      exact (List.mem_append.mp member).elim (collapses.unwinds activity)
        (unwinds activity)
    · rw [← List.cons_append, updateResults_append, silent, List.append_nil,
        collapses.results]
  performs := by
    obtain ⟨calls, globals, performed, actions, recorded⟩ := breaks.performs
    refine ⟨calls, globals, ?_, ?_, reserved.globals.trans recorded⟩
    · rwa [reserved.agent]
    · rw [ranActions_append, ranActions_of_unwinding unwinds, List.append_nil,
        actions]

theorem moves (breaks : Breaks setting before middle growth message)
    (moves : Moves tree node middle after) :
    ∃ further, Breaks setting before after further message := by
  induction moves with
  | refl => exact ⟨growth, breaks⟩
  | tail _ move induction =>
      obtain ⟨further, breaks⟩ := induction
      obtain ⟨count, log⟩ := move.log
      refine ⟨_, breaks.append move.reserved log ?_ (updateResults_of_plain ?_)⟩
      all_goals
        intro activity member
        rw [List.eq_of_mem_replicate member]
        rfl

end Breaks

/-- Ticking comes to an error, or is smooth. -/
def Breaking (setting : Setting α) (before : Pass α) (status : Status)
    (after : Pass α) : Prop :=
  (status ≠ .error → ∃ growth, Smooth setting before after growth) ∧
    (status = .error → ∃ growth message,
      Breaks setting before after growth message)

/-- An update comes to an error: by its own fault, or by that of a tick. -/
inductive Fails (setting : Setting α) (tree : Tree) (node : Node)
    (before : Pass α) : Pass α → Prop where
  | own {chosen failing : Pass α} {growth : List Activity} {message : String} :
      Smooth setting before failing growth →
      Complaint setting tree node chosen failing message →
      Fails setting tree node before (failing.addError message)
  | inherited {after : Pass α} {growth : List Activity} {message : String} :
      Breaks setting before after growth message →
      Fails setting tree node before after

theorem Fails.prepend {setting : Setting α} {tree : Tree} {node : Node}
    {before middle after : Pass α} {growth : List Activity}
    (smooth : Smooth setting before middle growth)
    (fails : Fails setting tree node middle after) :
    Fails setting tree node before after := by
  cases fails with
  | own later complaint => exact .own (smooth.trans later) complaint
  | inherited breaks => exact .inherited (breaks.prepend smooth)

/-- A node is entered before the update of it, and left afterwards. -/
structure Brackets (ref : NodeRef) (status : Status)
    (before opened body after : Pass α) (opening closing : List Activity) :
    Prop where
  entering : Reserved before opened
  log : opened.log = before.log ++ .entered ref :: opening
  opens : ∀ activity ∈ opening, activity = .opened ref
  leaving : Reserved body after
  endLog : after.log = body.log ++ .finished ref status :: closing
  closes : ∀ activity ∈ closing, activity = .closed ref

theorem brackets (setting : Setting α) (tree : Tree) (node : Node)
    (status : Status) (before body : Pass α) : ∃ opening closing,
      Brackets (tree.refTo node) status before
        (PassM.enter setting tree node (before.accept (tree.refTo node))) body
        (PassM.leave setting tree node status body) opening closing := by
  have accepted : Reserved before (before.accept (tree.refTo node)) :=
    ⟨rfl, rfl, rfl, rfl⟩
  refine ⟨_, _,
    { entering := accepted.trans (.enter setting tree node _)
      log := (PassM.enters_enter setting tree node before).log
      opens := fun activity member => ?_
      leaving := .leave setting tree node body status
      endLog := (PassM.leaves_leave setting tree node status body).log
      closes := fun activity member => ?_ }⟩
  · split at member
    · cases member
    · exact List.mem_singleton.mp member
  · split at member
    · cases member
    · exact List.mem_singleton.mp member

namespace Brackets

variable {setting : Setting α} {tree : Tree} {node : Node} {ref : NodeRef}
  {status : Status} {before opened body after : Pass α}
  {opening closing growth : List Activity} {message : String}

theorem nested_opening
    (around : Brackets ref status before opened body after opening closing) :
    Nested opening :=
  .of_entries fun activity member => by rw [around.opens activity member]; rfl

theorem ranActions_around
    (around : Brackets ref status before opened body after opening closing) :
    ranActions opening = [] ∧ ranActions closing = [] := by
  refine ⟨ranActions_of_idle fun _ member => ?_,
    ranActions_of_idle fun _ member => ?_⟩
  · cases around.opens _ member
  · cases around.closes _ member

theorem wholeLog
    (around : Brackets ref status before opened body after opening closing)
    (log : body.log = opened.log ++ growth) : after.log = before.log ++
      .entered ref :: (opening ++ growth ++ .finished ref status :: closing) := by
  rw [around.endLog, log, around.log]
  simp

theorem smooth
    (around : Brackets ref status before opened body after opening closing)
    (update : Smooth setting opened body growth) (good : status ≠ .error) :
    Smooth setting before after
      (.entered ref :: (opening ++ growth ++ .finished ref status :: closing)) where
  log := around.wholeLog update.log
  nested := .update (around.nested_opening.append update.nested)
    (.of_entries fun activity member => by
      rw [around.closes activity member]
      rfl)
  calm activity member := by
    simp only [List.mem_cons, List.mem_append] at member
    rcases member with rfl | (isOpening | inUpdate) | rfl | isClosing
    · rfl
    · rw [around.opens activity isOpening]
      rfl
    · exact update.calm activity inUpdate
    · cases status with
      | error => exact absurd rfl good
      | _ => rfl
    · rw [around.closes activity isClosing]
      rfl
  exhausted := (around.leaving.exhausted.trans update.exhausted).trans
    around.entering.exhausted
  performs := by
    obtain ⟨calls, performed, actions⟩ := update.performs
    refine ⟨calls, ?_, ?_⟩
    · rwa [← around.entering.agent, ← around.entering.globals,
        around.leaving.agent, around.leaving.globals]
    · simp [ranActions, ranActions_append, around.ranActions_around, actions]

theorem underWay_eq
    (around : Brackets ref status before opened body after opening closing)
    (stack : List NodeRef) (earlier : List Activity) :
    underWay stack (.entered ref :: (opening ++ earlier)) =
      underWay (ref :: stack) earlier := by
  rw [underWay, underWay_append, around.nested_opening.underWay_eq]

/-- An update that comes to an error by its own fault. -/
theorem breaks_own {chosen failing : Pass α}
    (around : Brackets (tree.refTo node) .error before opened
      (failing.addError message) after opening closing)
    (update : Smooth setting opened failing growth)
    (complaint : Complaint setting tree node chosen failing message) :
    ∃ growth, Breaks setting before after growth message := by
  have log : (failing.addError message).log = opened.log ++ growth := update.log
  refine ⟨_, around.wholeLog log, ?_, ?_⟩
  · refine ⟨.entered (tree.refTo node) :: (opening ++ growth), _, closing, rfl,
      ⟨?_, ?_, ?_⟩, .failed complaint, fun stack => ?_⟩
    · intro activity member
      simp only [List.mem_cons, List.mem_append] at member
      rcases member with rfl | isOpening | inUpdate
      · rfl
      · rw [around.opens activity isOpening]
        rfl
      · exact update.calm activity inUpdate
    · intro activity member
      rw [around.closes activity member]
      rfl
    · rw [around.underWay_eq, update.nested.underWay_eq, updateResults,
        updateResults_of_plain fun activity member => by
          rw [around.closes activity member]
          rfl]
      rfl
    · rw [around.underWay_eq, update.nested.underWay_eq, around.underWay_eq,
        update.nested.underWay_eq]
      rfl
  · obtain ⟨calls, performed, actions⟩ := update.performs
    refine ⟨calls, failing.board.globals, ?_, ?_, around.leaving.globals⟩
    · rw [← around.entering.agent, ← around.entering.globals, around.leaving.agent]
      exact performed
    · simp [ranActions, ranActions_append, around.ranActions_around, actions]

/-- An update that a tick makes come to an error. -/
theorem breaks
    (around : Brackets ref .error before opened body after opening closing)
    (update : Breaks setting opened body growth message) :
    ∃ growth, Breaks setting before after growth message := by
  refine ⟨_, around.wholeLog update.log, ?_, ?_⟩
  · obtain ⟨earlier, first, later, rfl, collapses, raises, onTop⟩ :=
      update.collapses
    refine ⟨.entered ref :: (opening ++ earlier), first,
      later ++ .finished ref .error :: closing, by simp, ⟨?_, ?_, ?_⟩, raises,
      fun stack => ?_⟩
    · intro activity member
      simp only [List.mem_cons, List.mem_append] at member
      rcases member with rfl | isOpening | inUpdate
      · rfl
      · rw [around.opens activity isOpening]
        rfl
      · exact collapses.calm activity inUpdate
    · intro activity member
      simp only [List.mem_cons, List.mem_append] at member
      rcases member with inUpdate | rfl | isClosing
      · exact collapses.unwinds activity inUpdate
      · rfl
      · rw [around.closes activity isClosing]
        rfl
    · rw [← List.cons_append, updateResults_append, collapses.results,
        updateResults, around.underWay_eq, onTop [ref], List.map_append,
        updateResults_of_plain fun activity member => by
          rw [around.closes activity member]
          rfl]
      rfl
    · rw [around.underWay_eq, onTop, around.underWay_eq, onTop [ref]]
      simp
  · obtain ⟨calls, globals, performed, actions, recorded⟩ := update.performs
    refine ⟨calls, globals, ?_, ?_, around.leaving.globals.trans recorded⟩
    · rwa [← around.entering.agent, ← around.entering.globals,
        around.leaving.agent]
    · simp only [ranActions, ranActions_append, around.ranActions_around,
        actions]
      simp

end Brackets

theorem breaks_cut {setting : Setting α} {budget : UInt64}
    (limited : setting.config.maxStepsPerTick = some budget) (pass : Pass α)
    (ref : NodeRef) :
    Breaks setting pass (pass.cut budget ref) [.refused ref]
      (budgetMessage budget ref.hash) where
  log := log_note _ _
  collapses := ⟨[], _, [], rfl, ⟨nofun, nofun, rfl⟩, .refused limited,
    fun _ => rfl⟩
  performs := ⟨[], _, .done, rfl, rfl⟩

end Pass

open BehaviorTree.Pass

variable {setting : Setting α} {tree : Tree} {node : Node}
  {before after : Pass α}

namespace Way

variable {next : Tree} {child : Node} {start : Pass α} {back : Pass α → Pass α}

theorem start_smooth (way : Way setting tree node before next child start back) :
    Smooth setting before start [] := by
  cases way with
  | child => exact .of_depth before.depth
  | jump => exact .of_depth _

theorem back_smooth (way : Way setting tree node before next child start back) :
    Smooth setting after (back after) [] := by
  cases way with
  | child => exact .of_depth after.depth
  | jump => exact .of_depth _

theorem back_reserved
    (way : Way setting tree node before next child start back) (after : Pass α) :
    Reserved after (back after) ∧ (back after).log = after.log := by
  cases way with
  | child => exact ⟨.refl, rfl⟩
  | jump => exact ⟨⟨rfl, rfl, rfl, rfl⟩, rfl⟩

end Way

/-- A script that fails fast is smooth, or it comes to its error by a fault of
its own or by that of a tick. -/
theorem Script.FailFast.fails {β : Type} {bad value : β}
    {visit : PassM.Visit α} {script : Script α β}
    (visits : ∀ {next child start status after}, start.exhausted = false →
      visit next child start = some (status, after) →
      Breaking setting start status after)
    (failFast : script.FailFast setting tree node bad before)
    (fresh : before.exhausted = false)
    (ended : script.run visit = some (value, after)) :
    (value ≠ bad → ∃ growth, Smooth setting before after growth) ∧
      (value = bad → Fails setting tree node before after) := by
  induction failFast with
  | outOfFuel => cases ended
  | done acts good =>
      cases ended
      exact ⟨fun _ => Smooth.of_acts acts, fun same => absurd same good⟩
  | fail _ reaches complaint =>
      cases ended
      obtain ⟨growth, smooth⟩ := Smooth.of_acts reaches
      exact ⟨fun good => absurd rfl good, fun _ => .own smooth complaint⟩
  | @tick _ _ start _ _ back _ acts way _ ends induction =>
      obtain ⟨⟨status, middle⟩, visited, ended⟩ :=
        Option.bind_eq_some_iff.mp ended
      obtain ⟨growth, smooth⟩ := Smooth.of_acts acts
      have begins := smooth.trans way.start_smooth
      have starts : start.exhausted = false := begins.exhausted.trans fresh
      obtain ⟨isSmooth, isBreaking⟩ := visits starts visited
      by_cases good : status = .error
      · subst good
        obtain ⟨moved, moves, isDone⟩ := ends middle
        rw [isDone] at ended
        cases ended
        refine ⟨fun differs => absurd rfl differs, fun _ => ?_⟩
        obtain ⟨_, _, breaks⟩ := isBreaking rfl
        obtain ⟨reserved, log⟩ := way.back_reserved middle
        obtain ⟨_, breaks⟩ := ((breaks.prepend begins).append reserved
          (log.trans (List.append_nil _).symm) nofun rfl).moves moves
        exact .inherited breaks
      · obtain ⟨_, visit⟩ := isSmooth good
        have whole := (begins.trans visit).trans way.back_smooth
        obtain ⟨goesOn, stops⟩ := induction _ _ good
          (whole.exhausted.trans fresh) ended
        refine ⟨fun differs => ?_, fun same => (stops same).prepend whole⟩
        obtain ⟨_, rest⟩ := goesOn differs
        exact ⟨_, whole.trans rest⟩

/-- A tick is smooth, or comes to an error that one message explains. -/
theorem PassM.breaking_of_tick {fuel : Nat} {status : Status}
    (fresh : before.exhausted = false)
    (ended : tick setting fuel tree node before = some (status, after)) :
    Breaking setting before status after := by
  induction fuel generalizing tree node before status after with
  | zero => cases ended
  | succ fuel induction =>
      by_cases covered : ∀ budget, setting.config.maxStepsPerTick = some budget →
          before.steps < budget.toNat
      · obtain ⟨script, body, _, failFast, runs, rfl⟩ :=
          script_of_tick covered ended
        obtain ⟨opening, closing, around⟩ :=
          brackets setting tree node status before body
        obtain ⟨smooth, fails⟩ := failFast.fails induction
          (around.entering.exhausted.trans fresh) runs
        refine ⟨fun good => ?_, fun same => ?_⟩
        · obtain ⟨growth, smooth⟩ := smooth good
          exact ⟨_, around.smooth smooth good⟩
        · subst same
          cases fails rfl with
          | own update complaint =>
              obtain ⟨growth, breaks⟩ := around.breaks_own update complaint
              exact ⟨growth, _, breaks⟩
          | inherited breaks =>
              obtain ⟨growth, breaks⟩ := around.breaks breaks
              exact ⟨growth, _, breaks⟩
      · push Not at covered
        obtain ⟨budget, limited, exceeded⟩ := covered
        have exceeded : budget.toNat ≤ before.steps := by omega
        rw [tick_of_exceeded limited exceeded fresh] at ended
        cases ended
        exact ⟨fun good => absurd rfl good,
          fun _ => ⟨_, _, breaks_cut limited before (tree.refTo node)⟩⟩

end BehaviorTree
