import BehaviorTree.Proofs.NodeState
import BehaviorTree.Proofs.Pass.Limiting
import BehaviorTree.Proofs.Pass.Ranging
import BehaviorTree.Proofs.Pass.Relating
import BehaviorTree.Proofs.Pass.Resuming
import BehaviorTree.Proofs.Pass.Wary

/-!
# States that fit

In a forest in which hashes tell the nodes apart, a node that was entered keeps
a state that fits until it is left: the ticks in between write to it in its own
shape only, those of the node itself included.  So a wary tick never has to give
up, and is the plain one.
-/

namespace BehaviorTree

variable {α β : Type}

namespace Blackboard

variable {board first second : Blackboard} {tree : Tree} {node : Node}

theorem fits_iff :
    board.fits node = true ↔ ∃ state,
      board.states[node.hash]? = some state ∧
      state.kind.fits node.kind = true := by
  rw [fits, Option.any_eq_true]

theorem fits_congr
    (same : second.states[node.hash]? = first.states[node.hash]?) :
    second.fits node = first.fits node := by
  rw [fits, fits, same]

theorem fits_setState {state : NodeState} :
    (board.setState node.hash state).fits node = state.kind.fits node.kind := by
  rw [fits, states_setState, if_pos rfl, Option.any_some]

theorem fits_updateState {change : NodeState → NodeState}
    (keeps : ∀ state, state.kind.fits node.kind = true →
      (change state).kind.fits node.kind = true) :
    (board.updateState tree node change).fits node = true := by
  rw [updateState, fits_setState]
  exact keeps _ (fits_stateFor board tree node)

/-- A state that is mended first is the one that is changed. -/
theorem updateState_updateState (board : Blackboard) (tree : Tree) (node : Node)
    (change : NodeState → NodeState) :
    (board.updateState tree node id).updateState tree node change =
      board.updateState tree node change := by
  have mended : (board.updateState tree node id).stateFor tree node =
      board.stateFor tree node := by
    refine stateFor_eq tree ?_ (board.fits_stateFor tree node)
    rw [updateState, states_setState, if_pos rfl, id]
  rw [updateState, mended, updateState, updateState]
  simp only [setState, Blackboard.mk.injEq, true_and, and_true]
  apply Std.ExtTreeMap.ext_getElem?
  intro hash
  simp only [Std.ExtTreeMap.getElem?_insert]
  split
  · rfl
  · rfl

end Blackboard

theorem KindState.shape_of_fits {state : KindState} {kind : NodeKind}
    (fits : state.fits kind = true) : state.shape = kind.stateShape :=
  of_decide_eq_true fits

namespace Pass

variable {tree : Tree} {node : Node} {status : Status} {before after : Pass α}

theorem fits_openedKind {kind : KindState} (fits : kind.fits node.kind = true) :
    (openedKind tree node (NodeState.syncKind kind node.kind)).fits node.kind =
      true := by
  refine KindState.fits_of_shape ?_ fits
  rw [← NodeState.shape_syncKind kind node.kind]
  cases NodeState.syncKind kind node.kind <;> rfl

theorem fits_closedKind {kind : KindState} (fits : kind.fits node.kind = true) :
    (closedKind kind).fits node.kind = true := by
  refine KindState.fits_of_shape ?_ fits
  cases kind <;> rfl

theorem Enters.fits (enters : Enters tree node before after) :
    after.board.fits node = true := by
  obtain ⟨state, present, _, isKind⟩ := enters.here
  refine Blackboard.fits_iff.mpr ⟨state, present, ?_⟩
  have fits := before.board.fits_stateFor tree node
  rw [isKind]
  split
  · exact fits
  · exact fits_openedKind fits

theorem Leaves.fits (leaves : Leaves tree node status before after) :
    after.board.fits node = true := by
  obtain ⟨state, present, _, isKind⟩ := leaves.here
  refine Blackboard.fits_iff.mpr ⟨state, present, ?_⟩
  have fits := before.board.fits_stateFor tree node
  rw [isKind]
  split
  · exact fits
  · exact fits_closedKind fits

theorem Aside.fits (aside : Aside tree node before after)
    (fits : before.board.fits node = true) : after.board.fits node = true := by
  rcases aside.here with same | ⟨state, present, _, isFit⟩
  · rwa [Blackboard.fits_congr same]
  · exact Blackboard.fits_iff.mpr ⟨state, present, isFit⟩

/-- What a step at one node writes is fit for every node with its hash, and
that is the node itself. -/
theorem Step.fits {forest : Forest} (isScoped : forest.Scoped) {home : Tree}
    {kept : Node} (located : forest.Located home kept)
    (step : Step forest before after) (fits : before.board.fits kept = true) :
    after.board.fits kept = true := by
  have settle : ∀ {tree : Tree} {node : Node}, forest.Located tree node →
      (node.hash = kept.hash → after.board.fits node = true) →
      (kept.hash ≠ node.hash →
        after.board.states[kept.hash]? = before.board.states[kept.hash]?) →
      after.board.fits kept = true := by
    intro tree node found here elsewhere
    by_cases same : node.hash = kept.hash
    · obtain ⟨rfl, rfl⟩ := isScoped.unique located found same
      exact here rfl
    · rwa [Blackboard.fits_congr (elsewhere (Ne.symm same))]
  cases step with
  | aside found aside =>
      refine settle found (fun same => ?_) aside.elsewhere
      obtain ⟨rfl, rfl⟩ := isScoped.unique located found same
      exact aside.fits fits
  | refuse _ refuses =>
      have same : after.board.states[kept.hash]? =
          before.board.states[kept.hash]? := by rw [refuses.states]
      rwa [Blackboard.fits_congr same]
  | enter found enters => exact settle found (fun _ => enters.fits) enters.elsewhere
  | leave found _ leaves =>
      exact settle found (fun _ => leaves.fits) leaves.elsewhere
  | jump => exact fits

theorem Steps.fits {forest : Forest} (isScoped : forest.Scoped) {home : Tree}
    {kept : Node} (located : forest.Located home kept)
    (steps : Steps forest before after)
    (fits : before.board.fits kept = true) : after.board.fits kept = true := by
  induction steps with
  | refl => exact fits
  | tail _ step induction => exact step.fits isScoped located induction

end Pass

namespace Pass

/-- No state was found to be missing or of another shape. -/
def Clean (pass : Pass α) : Prop := ∀ ref, .misfit ref ∉ pass.log

theorem Clean.of_log {before after : Pass α} {growth : List Activity}
    (clean : before.Clean) (log : after.log = before.log ++ growth)
    (quiet : ∀ ref, .misfit ref ∉ growth) : after.Clean := by
  intro ref member
  rw [log] at member
  rcases List.mem_append.mp member with earlier | later
  · exact clean ref earlier
  · exact quiet ref later

/-- A step at a node whose state fits: it goes on fitting, and nothing is found
that does not. -/
structure Fitting (node : Node) (before after : Pass α) : Prop where
  fits : after.board.fits node = true
  clean : before.Clean → after.Clean

section Fitting

variable {tree : Tree} {node : Node} {pass : Pass α}

theorem fitting_ensureState :
    Fitting node pass (pass.ensureState tree node).2 where
  fits := Blackboard.fits_updateState fun _ fits => fits
  clean := id

theorem fitting_updateState {change : NodeState → NodeState}
    (keeps : ∀ state, state.kind.fits node.kind = true →
      (change state).kind.fits node.kind = true) :
    Fitting node pass (pass.updateState tree node change) where
  fits := Blackboard.fits_updateState keeps
  clean := id

theorem fitting_updateKind {change : KindState → Option KindState}
    (applies : ∀ kind, kind.fits node.kind = true →
      ∃ changed, change kind = some changed ∧
        changed.fits node.kind = true) :
    Fitting node pass (pass.updateKind tree node change) := by
  obtain ⟨kind, changed, fits⟩ :=
    applies _ (pass.board.fits_stateFor tree node)
  rw [updateKind_of_some changed]
  exact ⟨Blackboard.fits_updateState fun _ _ => fits, id⟩

theorem fitting_nextProbChild
    (prob : node.kind = .probSequence ∨ node.kind = .probSelector)
    (fits : pass.board.fits node = true) :
    Fitting node pass (pass.nextProbChild tree node).2 := by
  refine ⟨(Aside.nextProbChild pass prob).fits fits, ?_⟩
  obtain ⟨state, present, fits⟩ := Blackboard.fits_iff.mp fits
  obtain ⟨weights, available, runningChild, isProb⟩ :=
    exists_prob_of_fits prob fits
  rw [nextProbChild, present]
  dsimp only
  rw [isProb]
  cases runningChild with
  | some index => exact id
  | none =>
      dsimp only
      cases draw available pass.board.stream with
      | none => exact id
      | some drawn => exact id

theorem exists_parallel_of_fits {spec : ParallelSpec} {kind : KindState}
    (isParallel : node.kind = .parallel spec)
    (fits : kind.fits node.kind = true) :
    ∃ results spec, kind = .parallel results spec := by
  cases kind with
  | parallel results spec => exact ⟨_, _, rfl⟩
  | _ =>
      have shape := KindState.shape_of_fits fits
      rw [isParallel] at shape
      cases shape

theorem exists_repeater_of_fits {configured : UInt32} {kind : KindState}
    (isRepeater : node.kind = .repeater configured)
    (fits : kind.fits node.kind = true) :
    ∃ repeats count, kind = .repeater repeats count := by
  cases kind with
  | repeater repeats count => exact ⟨_, _, rfl⟩
  | _ =>
      have shape := KindState.shape_of_fits fits
      rw [isRepeater] at shape
      cases shape

theorem fitting_prepareParallel {spec : ParallelSpec}
    (isParallel : node.kind = .parallel spec)
    (fits : pass.board.fits node = true) :
    Fitting node pass (pass.prepareParallel tree node).2 := by
  refine ⟨(Aside.prepareParallel pass).fits fits, ?_⟩
  obtain ⟨results, spec, isKind⟩ := exists_parallel_of_fits isParallel
    (pass.board.fits_stateFor tree node)
  have ensured : (pass.ensureState tree node).1.kind =
      .parallel results spec := isKind
  rw [prepareParallel]
  dsimp only
  rw [ensured]
  exact id

theorem fitting_recordResult {spec : ParallelSpec}
    (isParallel : node.kind = .parallel spec) (index : Nat) (status : Status)
    (fits : pass.board.fits node = true) :
    Fitting node pass (pass.recordResult tree node index status).2 := by
  refine ⟨(Aside.recordResult pass isParallel index status).fits fits, ?_⟩
  obtain ⟨state, present, fits⟩ := Blackboard.fits_iff.mp fits
  obtain ⟨results, spec, isKind⟩ := exists_parallel_of_fits isParallel fits
  rw [recordResult, present]
  dsimp only
  rw [isKind]
  exact id

theorem fitting_note {activity : Activity}
    (fits : pass.board.fits node = true)
    (quiet : ∀ ref, activity ≠ .misfit ref) :
    Fitting node pass (pass.note activity) where
  fits := fits
  clean clean := clean.of_log (log_note pass activity) fun ref member =>
    quiet ref (List.mem_singleton.mp member).symm

theorem Writes.fitting {entries : List Activity} {state : NodeState}
    {after : Pass α} (writes : Writes tree node entries state pass after)
    (fits : state.kind.fits node.kind = true)
    (quiet : ∀ ref, .misfit ref ∉ entries) : Fitting node pass after where
  fits := Blackboard.fits_iff.mpr ⟨state, writes.here, fits⟩
  clean clean := clean.of_log writes.log quiet

theorem fitting_openNode (config : HandlerConfig) :
    Fitting node pass (pass.openNode config tree node) :=
  (writes_openNode pass config tree node).fitting
    (fits_openedKind (pass.board.fits_stateFor tree node)) (by simp)

theorem fitting_closeNode (config : HandlerConfig) :
    Fitting node pass (pass.closeNode config tree node) :=
  (writes_closeNode pass config tree node).fitting
    (fits_closedKind (pass.board.fits_stateFor tree node)) (by simp)

theorem fitting_abandonNode (config : HandlerConfig) :
    Fitting node pass (pass.abandonNode config tree node) :=
  (writes_abandonNode pass config tree node).fitting
    (fits_closedKind (pass.board.fits_stateFor tree node)) (by simp)

theorem fitting_keepRunning :
    Fitting node pass (pass.keepRunning tree node) := by
  have flagged : Fitting node pass (pass.updateState tree node
      fun state => { state with running := true }) :=
    fitting_updateState fun _ fits => fits
  rw [keepRunning, Blackboard.noteRunning]
  split
  · exact ⟨flagged.fits, flagged.clean⟩
  · exact ⟨flagged.fits, flagged.clean⟩

end Fitting

/-- The two are one pass, in which no state was found that does not fit. -/
structure Agree (first second : Pass α) : Prop where
  same : second = first
  clean : first.Clean

/-- The state of the node fits as well. -/
structure Certain (node : Node) (first second : Pass α) : Prop
    extends Agree first second where
  fits : first.board.fits node = true

variable {node : Node} {first second : Pass α}

theorem Certain.fitting (certain : Certain node first second)
    (change : Pass α → Pass α) (fitting : Fitting node first (change first)) :
    Certain node (change first) (change second) where
  same := congrArg change certain.same
  fits := fitting.fits
  clean := fitting.clean certain.clean

theorem congruence_certain :
    Congruence (Certain node : Pass α → Pass α → Prop) where
  agent certain := by rw [certain.same]
  globals certain := by rw [certain.same]
  depth certain := by rw [certain.same]
  setAgent agent certain :=
    certain.fitting ({ · with agent }) ⟨certain.fits, id⟩
  setGlobals globals certain :=
    certain.fitting
      (fun pass => { pass with board := { pass.board with globals } })
      ⟨certain.fits, id⟩
  setDepth depth certain :=
    certain.fitting ({ · with depth }) ⟨certain.fits, id⟩
  emit tag hash detail certain :=
    certain.fitting (·.emit tag hash detail) ⟨certain.fits, id⟩
  ran action certain :=
    certain.fitting (·.note (.ran action))
      (fitting_note certain.fits nofun)

end Pass

namespace PassM

open BehaviorTree.Pass

section Certain

variable {γ : Type} {tree : Tree} {node : Node}

theorem certain_whenFit (tree : Tree) {run wary : PassM α β} (otherwise : β)
    (same : Related (Certain node) run wary) :
    Related (Certain node) run (Wary.whenFit tree node otherwise wary) := by
  intro first second certain
  have fits : second.board.fits node = true := by
    rw [certain.same]
    exact certain.fits
  have looked : Wary.whenFit tree node otherwise wary second = wary second := by
    rw [Wary.whenFit, get_bind, if_pos fits]
  rw [looked]
  exact same _ _ certain

theorem certain_modify {change : Pass α → Pass α}
    (fitting : ∀ pass, pass.board.fits node = true →
      Fitting node pass (change pass)) :
    Related (Certain node) (modify change) (modify change) :=
  related_modify fun certain => certain.fitting _ (fitting _ certain.fits)

theorem certain_modifyGet_bind {change : Pass α → γ × Pass α}
    {run wary : γ → PassM α β}
    (fitting : ∀ pass, pass.board.fits node = true →
      Fitting node pass (change pass).2)
    (rest : ∀ pass : Pass α, pass.board.fits node = true →
      Related (Certain node) (run (change pass).1) (wary (change pass).1)) :
    Related (Certain node) (modifyGet change >>= run)
      (modifyGet change >>= wary) := by
  intro first second certain
  have next := certain.fitting (fun pass => (change pass).2)
    (fitting _ certain.fits)
  rw [modifyGet_bind, modifyGet_bind, certain.same]
  rw [certain.same] at next
  exact rest first certain.fits _ _ next

variable {tickAt wary : Nat → PassM α Status}
  (ticks : ∀ index, Related (Certain node) (tickAt index) (wary index))
include ticks

theorem certain_scanMem (isMem : node.kind.IsMem) (goOn : Status)
    (indices : List Nat) :
    Related (Certain node) (scanMem tickAt (recordMem tree node) goOn indices)
      (Wary.scanMem wary tree node goOn indices) := by
  have records : ∀ index,
      Related (Certain node) (recordMem tree node index : PassM α Unit)
        (recordMem tree node index) := by
    intro index
    refine certain_modify fun pass _ => fitting_updateKind fun kind fits => ?_
    obtain ⟨start, rfl⟩ := KindState.exists_mem_of_fits isMem fits
    exact ⟨.mem index, rfl, fits⟩
  induction indices with
  | nil => exact related_pure _
  | cons index rest induction =>
      refine (ticks index).bind fun status => ?_
      split
      · exact certain_whenFit _ _ ((records index).bind fun _ => related_pure _)
      · split
        · exact induction
        · exact related_pure _

theorem certain_drawLoop
    (prob : node.kind = .probSequence ∨ node.kind = .probSelector)
    (goOn : Status) (fuel : Nat) :
    Related (Certain node) (drawLoop tickAt tree node goOn fuel)
      (Wary.drawLoop wary tree node goOn fuel) := by
  have records : ∀ index,
      Related (Certain node) (recordProb tree node index : PassM α Unit)
        (recordProb tree node index) := by
    intro index
    refine certain_modify fun pass _ => fitting_updateKind fun kind fits => ?_
    obtain ⟨weights, available, runningChild, rfl⟩ :=
      exists_prob_of_fits prob fits
    exact ⟨.prob weights available (some index), rfl, fits⟩
  induction fuel with
  | zero => exact related_outOfFuel
  | succ fuel induction =>
      refine certain_whenFit _ _ (certain_modifyGet_bind
        (fun _ => fitting_nextProbChild prob) fun pass _ => ?_)
      cases (pass.nextProbChild tree node).1 with
      | none => exact related_pure _
      | some index =>
          refine (ticks index).bind fun status => ?_
          split
          · exact certain_whenFit _ _ ((records index).bind fun _ => related_pure _)
          · split
            · exact induction
            · exact related_pure _

end Certain

section Updates

variable {visit wary : Visit α} {tree : Tree} {node : Node}
  (children : ∀ {index : Nat} {child : Node},
    tree.childAt node index = some child →
    Related (Certain node) (visit tree child) (wary tree child))
include children

theorem certain_resumeMem (isMem : node.kind.IsMem) (goOn : Status) :
    Related (Certain node) (resumeMem visit tree node goOn)
      (Wary.resumeMem wary tree node goOn) := by
  refine certain_whenFit _ _ (certain_modifyGet_bind
    (fun _ _ => fitting_ensureState) fun pass _ => ?_)
  obtain ⟨start, isKind⟩ := KindState.exists_mem_of_fits isMem
    (pass.board.fits_stateFor tree node)
  have ensured : (pass.ensureState tree node).1.kind = .mem start := isKind
  rw [ensured]
  exact certain_scanMem (related_tickChild congruence_certain children) isMem
    goOn _

theorem certain_scanProb
    (prob : node.kind = .probSequence ∨ node.kind = .probSelector)
    (fuel : Nat) (goOn : Status) :
    Related (Certain node) (scanProb fuel visit tree node goOn)
      (Wary.scanProb fuel wary tree node goOn) :=
  certain_whenFit _ _ (certain_modifyGet_bind (fun _ _ => fitting_ensureState)
    fun _ _ => certain_drawLoop
      (related_tickChild congruence_certain children) prob goOn fuel)

theorem certain_visitParallel {configured : ParallelSpec}
    (isParallel : node.kind = .parallel configured) (spec : ParallelSpec)
    (indices : List Nat) :
    Related (Certain node) (visitParallel visit tree node spec indices)
      (Wary.visitParallel wary tree node spec indices) := by
  induction indices with
  | nil => exact related_pure _
  | cons index rest induction =>
      refine certain_whenFit _ _ (related_get_bind fun {first second} certain => ?_)
      rw [certain.same]
      split
      · exact induction
      cases isChild : tree.childAt node index with
      | none =>
          exact (related_missingChild congruence_certain node index).bind
            fun _ => related_pure _
      | some child =>
          refine (children isChild).bind fun status => ?_
          refine certain_whenFit _ _ (certain_modifyGet_bind
            (fun _ => fitting_recordResult isParallel index status)
            fun pass _ => ?_)
          cases spec.verdict index status
              (pass.recordResult tree node index status).1 with
          | some verdict => exact related_pure _
          | none => exact induction

theorem certain_parallel {configured : ParallelSpec}
    (isParallel : node.kind = .parallel configured) :
    Related (Certain node) (parallel visit tree node)
      (Wary.parallel wary tree node) := by
  refine certain_whenFit _ _ (certain_modifyGet_bind
    (fun _ => fitting_prepareParallel isParallel) fun pass _ => ?_)
  refine (certain_visitParallel children isParallel _ _).bind fun verdict => ?_
  cases verdict with
  | some verdict => exact related_pure _
  | none =>
      refine certain_whenFit _ _ (related_get_bind fun {first second} certain => ?_)
      rw [certain.same]
      exact related_pure _

theorem certain_repeater {configured : UInt32}
    (isRepeater : node.kind = .repeater configured) :
    Related (Certain node) (repeater visit tree node)
      (Wary.repeater wary tree node) := by
  have counts : ∀ change,
      Related (Certain node) (setRepeatCount tree node change : PassM α Unit)
        (setRepeatCount tree node change) := by
    intro change
    refine certain_modify fun pass _ => fitting_updateKind fun kind fits => ?_
    obtain ⟨repeats, count, rfl⟩ := exists_repeater_of_fits isRepeater fits
    exact ⟨.repeater repeats (change count), rfl, fits⟩
  refine certain_whenFit _ _ (certain_modifyGet_bind
    (fun _ _ => fitting_ensureState) fun pass _ => ?_)
  obtain ⟨repeats, count, isKind⟩ := exists_repeater_of_fits isRepeater
    (pass.board.fits_stateFor tree node)
  have ensured : (pass.ensureState tree node).1.kind =
      .repeater repeats count := isKind
  rw [ensured]
  simp only [pure_bind]
  split
  · exact certain_whenFit _ _ ((counts _).bind fun _ => related_pure _)
  · refine (related_tickChild congruence_certain children 0).bind
      fun status => ?_
    split
    · exact certain_whenFit _ _ ((counts _).bind fun _ => related_pure _)
    · exact related_pure _

theorem certain_limiter {configured : UInt32}
    (isLimiter : node.kind = .limiter configured) :
    Related (Certain node) (limiter visit tree node)
      (Wary.limiter wary tree node) := by
  refine certain_whenFit _ _ (certain_modifyGet_bind
    (fun _ _ => fitting_ensureState) fun pass _ => ?_)
  have fits := pass.board.fits_stateFor tree node
  obtain ⟨limit, remaining, isKind⟩ :=
    pass.board.exists_limiter_stateFor tree isLimiter
  rw [isKind] at fits
  have ensured : (pass.ensureState tree node).1.kind =
      .limiter limit remaining := isKind
  rw [ensured]
  dsimp only
  split
  · exact related_pure _
  · exact certain_whenFit _ _
      ((certain_modify fun _ _ => fitting_updateState fun _ _ => fits).bind
        fun _ => related_delegate congruence_certain children id)

variable {setting : Setting α}
  (targets : ∀ {selector : TreeSelector} {target : Tree},
    setting.forest.select selector = some target →
    Related (Certain node) (visit target target.rootNode)
      (wary target target.rootNode))
include targets

theorem certain_update (fuel : Nat) :
    Related (Certain node) (update setting fuel visit tree node)
      (Wary.update setting fuel wary tree node) := by
  have plainly := related_update_of_plain congruence_certain children
    (.refl setting) targets
  cases kind : node.kind with
  | memSequence =>
      rw [update, Wary.update, kind]
      exact certain_resumeMem children (.inl kind) _
  | memSelector =>
      rw [update, Wary.update, kind]
      exact certain_resumeMem children (.inr kind) _
  | probSequence =>
      rw [update, Wary.update, kind]
      exact certain_scanProb children (.inl kind) _ _
  | probSelector =>
      rw [update, Wary.update, kind]
      exact certain_scanProb children (.inr kind) _ _
  | parallel spec =>
      rw [update, Wary.update, kind]
      exact certain_parallel children kind
  | repeater repeats =>
      rw [update, Wary.update, kind]
      exact certain_repeater children kind
  | limiter limit =>
      rw [update, Wary.update, kind]
      exact certain_limiter children kind
  | _ =>
      rw [Wary.update, kind]
      exact plainly (by rw [kind]; rfl) fuel

end Updates

section Passes

variable {setting : Setting α} {visit wary : Visit α} {tree : Tree}
  {node : Node}

theorem certain_leave (setting : Setting α) (tree : Tree) (status : Status) :
    Related (Certain node)
      (do
        modify (·.note (.finished (tree.refTo node) status))
        if status = .running then modify (·.keepRunning tree node)
        else modify (·.closeNode setting.config tree node)
        return status : PassM α Status)
      (do
        modify (·.note (.finished (tree.refTo node) status))
        if status = .running then modify (·.keepRunning tree node)
        else modify (·.closeNode setting.config tree node)
        return status) := by
  refine (certain_modify fun _ fits => fitting_note fits (by simp)).bind
    fun _ => ?_
  split
  · exact (certain_modify fun _ _ => fitting_keepRunning).bind
      fun _ => related_pure _
  · exact (certain_modify fun _ _ => fitting_closeNode setting.config).bind
      fun _ => related_pure _

theorem agree_modifyGet_bind {γ : Type} {change : Pass α → γ × Pass α}
    {run wary : γ → PassM α β}
    (mends : ∀ pass, Fitting node pass (change pass).2)
    (rest : ∀ value, Related (Certain node) (run value) (wary value)) :
    Related Agree (modifyGet change >>= run) (modifyGet change >>= wary) := by
  rintro _ pass ⟨rfl, clean⟩
  rw [modifyGet_bind, modifyGet_bind]
  have mended := mends pass
  have ran := rest (change pass).1 _ _ ⟨⟨rfl, mended.clean clean⟩, mended.fits⟩
  generalize run (change pass).1 (change pass).2 = outcome at ran ⊢
  generalize wary (change pass).1 (change pass).2 = waryOutcome at ran ⊢
  cases ran with
  | none => exact .none
  | some ends => exact .some ⟨ends.1, ends.2.toAgree⟩

theorem agree_activate {fuel : Nat}
    (updates : Related (Certain node) (update setting fuel visit tree node)
      (Wary.update setting fuel wary tree node)) :
    Related Agree (activate setting fuel visit tree node)
      (Wary.activate setting fuel wary tree node) := by
  have goesOn := updates.bind fun status =>
    certain_whenFit tree .error (certain_leave setting tree status)
  refine agree_modifyGet_bind (fun _ => fitting_updateState fun _ fits => fits)
    fun wasRunning => certain_whenFit _ _ ?_
  cases wasRunning with
  | true => exact goesOn
  | false =>
      exact (certain_modify fun _ _ => fitting_openNode setting.config).bind
        fun _ => goesOn

theorem agree_takeStep (config : HandlerConfig) :
    Related Agree (modifyGet (·.takeStep config (tree.refTo node)) : PassM α Bool)
      (modifyGet (·.takeStep config (tree.refTo node))) := by
  refine related_modifyGet fun {first second} agree => ?_
  obtain ⟨rfl, clean⟩ := agree
  refine ⟨rfl, rfl, ?_⟩
  rcases second.takeStep_cases config tree node with
    ⟨_, taken⟩ | ⟨after, taken, refuses⟩
  · rw [taken]
    exact clean.of_log (log_note _ _) (by simp)
  · rw [taken]
    exact clean.of_log refuses.log (by simp)

variable (wellFormed : setting.forest.WellFormed)
  (isScoped : setting.forest.Scoped) {home : Tree} {kept : Node}
  (keeps : setting.forest.Located home kept)
include wellFormed isScoped keeps

/-- While other nodes are ticked, and the node itself again, its state goes on
fitting. -/
theorem certain_tick {fuel : Nat} (located : setting.forest.Located tree node)
    (agrees : Related Agree (tick setting fuel tree node)
      (Wary.tick setting fuel tree node)) :
    Related (Certain kept) (tick setting fuel tree node)
      (Wary.tick setting fuel tree node) := by
  intro first second certain
  have ran := agrees _ _ certain.toAgree
  generalize Wary.tick setting fuel tree node second = outcome at ran ⊢
  cases ended : tick setting fuel tree node first with
  | none =>
      rw [ended] at ran
      cases ran
      exact .none
  | some result =>
      rw [ended] at ran
      cases ran with
      | some ends =>
          have steps := steps_of_tick wellFormed located ended
          exact .some ⟨ends.1, ends.2, steps.fits isScoped keeps certain.fits⟩

omit keeps

theorem agree_tick (fuel : Nat) (located : setting.forest.Located tree node) :
    Related Agree (tick setting fuel tree node)
      (Wary.tick setting fuel tree node) := by
  induction fuel generalizing tree node with
  | zero => exact related_outOfFuel
  | succ fuel induction =>
      refine (agree_takeStep setting.config).bind fun covered => ?_
      split
      -- a Transition may lead back to this node, so the looks that follow a
      -- tick in its update rest on what any tick leaves of its state
      · refine agree_activate (certain_update (fun isChild => ?_)
          (fun isTarget => ?_) fuel)
        · have child := wellFormed.located_childAt located isChild
          exact certain_tick wellFormed isScoped located child (induction child)
        · have target := wellFormed.located_target isTarget
          exact certain_tick wellFormed isScoped located target (induction target)
      · exact related_pure _

theorem Wary.tick_eq (located : setting.forest.Located tree node)
    {pass : Pass α} (clean : pass.Clean) (fuel : Nat) :
    Wary.tick setting fuel tree node pass =
      PassM.tick setting fuel tree node pass := by
  have agrees := agree_tick wellFormed isScoped fuel located _ _ ⟨rfl, clean⟩
  generalize Wary.tick setting fuel tree node pass = outcome at agrees ⊢
  generalize PassM.tick setting fuel tree node pass = plain at agrees ⊢
  cases agrees with
  | none => rfl
  | some ends => rw [Prod.ext ends.1 ends.2.same]

theorem clean_of_tick (located : setting.forest.Located tree node)
    {before after : Pass α} {fuel : Nat} {status : Status}
    (clean : before.Clean)
    (ended : tick setting fuel tree node before = some (status, after)) :
    after.Clean := by
  have agrees := agree_tick wellFormed isScoped fuel located _ _ ⟨rfl, clean⟩
  rw [ended] at agrees
  generalize Wary.tick setting fuel tree node before = outcome at agrees
  cases agrees with
  | some ends => exact ends.2.clean

end Passes

namespace Wary

variable {tree : Tree} {node : Node}

theorem closeNode_updateState (pass : Pass α) (config : HandlerConfig) :
    (pass.updateState tree node id).closeNode config tree node =
      pass.closeNode config tree node := by
  have mends := pass.board.updateState_updateState tree node fun state =>
    { state with running := false, kind := closedKind state.kind }
  simp only [closeNode, Pass.updateState, note, mends]

theorem abandonNode_updateState (pass : Pass α) (config : HandlerConfig) :
    (pass.updateState tree node id).abandonNode config tree node =
      pass.abandonNode config tree node := by
  let announced : Pass α :=
    (pass.note (.abandoned (tree.refTo node))).emitLifecycle config "bt.abandon"
      node
  change _ = announced.closeNode config tree node
  rw [← closeNode_updateState announced, abandonNode]
  congr 1
  simp only [announced, emitLifecycle]
  split
  · rfl
  · rfl

/-- A wary abandonment is the plain one. -/
theorem abandonEach_eq (setting : Setting α) (refs : List NodeRef)
    (pass : Pass α) :
    Wary.abandonEach setting refs pass = pass.abandonEach setting refs := by
  induction refs generalizing pass with
  | nil => rfl
  | cons ref rest induction =>
      rw [Wary.abandonEach, Pass.abandonEach, induction]
      congr 1
      cases setting.forest.get? ref.tree with
      | none => rfl
      | some tree =>
          dsimp only
          cases tree.nodes[ref.hash]? with
          | none => rfl
          | some node =>
              have mended : (pass.updateState tree node id).board.fits node =
                  true := Blackboard.fits_updateState fun _ fits => fits
              dsimp only
              rw [if_pos mended, abandonNode_updateState]

end Wary

theorem clean_abandonEach {setting : Setting α} {refs : List NodeRef}
    {pass : Pass α} (clean : pass.Clean) :
    (pass.abandonEach setting refs).Clean := by
  induction refs generalizing pass with
  | nil => exact clean
  | cons ref rest induction =>
      rw [Pass.abandonEach]
      apply induction
      cases setting.forest.get? ref.tree with
      | none => exact clean
      | some tree =>
          dsimp only
          cases tree.nodes[ref.hash]? with
          | none => exact clean
          | some node =>
              dsimp only
              split
              · exact (fitting_abandonNode setting.config).clean clean
              · exact clean

end PassM

end BehaviorTree
