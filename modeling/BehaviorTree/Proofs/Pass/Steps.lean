import BehaviorTree.Pass.Tick

/-!
# Steps of a pass

What the steps that a pass is made of do to the states, the running lists, the
journal and the counters.  A step at a node writes to the state of that node
alone, and leaves it in the shape with which the node executes.
-/

namespace BehaviorTree

namespace Blackboard

@[simp] theorem states_setState (board : Blackboard) (hash : NodeHash)
    (state : NodeState) (other : NodeHash) :
    (board.setState hash state).states[other]? =
      if other = hash then some state else board.states[other]? := by
  simp only [setState, Std.ExtTreeMap.getElem?_insert,
    Std.LawfulEqCmp.compare_eq_iff_eq]
  by_cases same : hash = other
  · simp [same]
  · simp [same, Ne.symm same]

theorem isRunning_eq {board : Blackboard} {hash : NodeHash} {state : NodeState}
    (present : board.states[hash]? = some state) :
    board.isRunning hash = state.running := by
  rw [isRunning, present]

theorem isRunning_congr {first second : Blackboard} {hash : NodeHash}
    (same : first.states[hash]? = second.states[hash]?) :
    first.isRunning hash = second.isRunning hash := by
  rw [isRunning, isRunning, same]

theorem fits_forNode (tree : Tree) (node : Node) :
    (NodeState.forNode tree node).kind.fits node.kind = true := by
  cases kind : node.kind <;>
    simp [NodeState.forNode, NodeState.initialKind, KindState.fits,
      KindState.shape, NodeKind.stateShape, kind]

theorem fits_stateFor (board : Blackboard) (tree : Tree) (node : Node) :
    (board.stateFor tree node).kind.fits node.kind = true := by
  rw [stateFor]
  split
  · split
    · next fits => exact fits
    · exact fits_forNode tree node
  · exact fits_forNode tree node

theorem stateFor_eq {board : Blackboard} (tree : Tree) {node : Node}
    {state : NodeState} (present : board.states[node.hash]? = some state)
    (fits : state.kind.fits node.kind = true) :
    board.stateFor tree node = state := by
  rw [stateFor, present]
  exact if_pos fits

theorem stateFor_of_misfit {board : Blackboard} (tree : Tree) {node : Node}
    (misfits : ∀ state ∈ board.states[node.hash]?,
      state.kind.fits node.kind = false) :
    board.stateFor tree node = .forNode tree node := by
  rw [stateFor]
  cases present : board.states[node.hash]? with
  | none => rfl
  | some state =>
      dsimp only
      rw [misfits state present, if_neg Bool.false_ne_true]

theorem stateFor_congr {first second : Blackboard} {tree : Tree} {node : Node}
    (same : first.states[node.hash]? = second.states[node.hash]?) :
    first.stateFor tree node = second.stateFor tree node := by
  rw [stateFor, stateFor, same]

end Blackboard

theorem KindState.fits_of_shape {before after : KindState} {kind : NodeKind}
    (same : after.shape = before.shape) (fits : before.fits kind = true) :
    after.fits kind = true := by
  rw [KindState.fits, same]
  exact fits

/-- An entry that speaks of no node's lifecycle. -/
def Activity.isRemark : Activity → Bool
  | ran _ => true
  | misfit _ => true
  | _ => false

namespace Pass

variable {α : Type}

/-- The entries of the journal, first to last. -/
def log (pass : Pass α) : List Activity := pass.journal.toList

@[simp] theorem log_note (pass : Pass α) (activity : Activity) :
    (pass.note activity).log = pass.log ++ [activity] := by
  simp [log, note]

section UpdateKind

variable {pass : Pass α} {tree : Tree} {node : Node}
  {change : KindState → Option KindState}

theorem updateKind_of_some {kind : KindState}
    (changed : change (pass.board.stateFor tree node).kind = some kind) :
    pass.updateKind tree node change =
      (pass.ensureState tree node).2.updateState tree node
        fun state => { state with kind } := by
  have found : change (pass.ensureState tree node).1.kind = some kind := changed
  rw [updateKind]
  dsimp only
  rw [found]

theorem updateKind_of_none
    (unchanged : change (pass.board.stateFor tree node).kind = none) :
    pass.updateKind tree node change =
      (pass.ensureState tree node).2.note (.misfit (tree.refTo node)) := by
  have found : change (pass.ensureState tree node).1.kind = none := unchanged
  rw [updateKind]
  dsimp only
  rw [found]

end UpdateKind

/-- What an update does between the ticks of children: it may write to the
state of its node, without changing the running flag, and add remarks. -/
structure Aside (tree : Tree) (node : Node) (before after : Pass α) :
    Prop where
  steps : after.steps = before.steps
  depth : after.depth = before.depth
  runningNow : after.board.runningNow = before.board.runningNow
  runningPre : after.board.runningPre = before.board.runningPre
  log : ∃ remarks, after.log = before.log ++ remarks ∧
    ∀ activity ∈ remarks, activity.isRemark = true
  elsewhere : ∀ {hash : NodeHash}, hash ≠ node.hash →
    after.board.states[hash]? = before.board.states[hash]?
  here : after.board.states[node.hash]? = before.board.states[node.hash]? ∨
    ∃ state, after.board.states[node.hash]? = some state ∧
      state.running = (before.board.stateFor tree node).running ∧
      state.kind.fits node.kind = true

namespace Aside

variable {tree : Tree} {node : Node} {before middle after : Pass α}

theorem of_states (steps : after.steps = before.steps)
    (depth : after.depth = before.depth)
    (runningNow : after.board.runningNow = before.board.runningNow)
    (runningPre : after.board.runningPre = before.board.runningPre)
    (states : after.board.states = before.board.states)
    (log : ∃ remarks, after.log = before.log ++ remarks ∧
      ∀ activity ∈ remarks, activity.isRemark = true) :
    Aside tree node before after where
  steps := steps
  depth := depth
  runningNow := runningNow
  runningPre := runningPre
  log := log
  elsewhere _ := by rw [states]
  here := .inl (by rw [states])

theorem refl : Aside tree node before before :=
  of_states rfl rfl rfl rfl rfl ⟨[], by simp⟩

theorem running_stateFor (aside : Aside tree node before after) :
    (after.board.stateFor tree node).running =
      (before.board.stateFor tree node).running := by
  rcases aside.here with same | ⟨state, present, running, fits⟩
  · rw [Blackboard.stateFor_congr same]
  · rw [Blackboard.stateFor_eq tree present fits, running]

theorem trans (first : Aside tree node before middle)
    (second : Aside tree node middle after) :
    Aside tree node before after where
  steps := second.steps.trans first.steps
  depth := second.depth.trans first.depth
  runningNow := second.runningNow.trans first.runningNow
  runningPre := second.runningPre.trans first.runningPre
  log := by
    obtain ⟨earlier, firstLog, firstRemarks⟩ := first.log
    obtain ⟨later, secondLog, secondRemarks⟩ := second.log
    refine ⟨earlier ++ later, by rw [secondLog, firstLog,
      List.append_assoc], ?_⟩
    intro activity member
    rcases List.mem_append.mp member with member | member
    · exact firstRemarks activity member
    · exact secondRemarks activity member
  elsewhere different :=
    (second.elsewhere different).trans (first.elsewhere different)
  here := by
    rcases second.here with same | ⟨state, present, running, fits⟩
    · rw [same]
      exact first.here
    · exact .inr ⟨state, present, by rw [running, first.running_stateFor],
        fits⟩

variable (pass : Pass α)

theorem note {activity : Activity} (remark : activity.isRemark = true) :
    Aside tree node pass (pass.note activity) :=
  of_states rfl rfl rfl rfl rfl ⟨[activity], log_note pass activity,
    by simpa using remark⟩

theorem addError (message : String) :
    Aside tree node pass (pass.addError message) :=
  of_states rfl rfl rfl rfl rfl ⟨[], by simp [Pass.log, Pass.addError]⟩

theorem emit (tag : String) (hash : NodeHash) (detail : String) :
    Aside tree node pass (pass.emit tag hash detail) :=
  of_states rfl rfl rfl rfl rfl ⟨[], by simp [Pass.log, Pass.emit]⟩

/-- Writing a state that fits and is flagged as before. -/
theorem of_write {board : Blackboard} (state : NodeState)
    (runningNow : board.runningNow = pass.board.runningNow)
    (runningPre : board.runningPre = pass.board.runningPre)
    (states : board.states = pass.board.states.insert node.hash state)
    (running : state.running = (pass.board.stateFor tree node).running)
    (fits : state.kind.fits node.kind = true) :
    Aside tree node pass { pass with board } where
  steps := rfl
  depth := rfl
  runningNow := runningNow
  runningPre := runningPre
  log := ⟨[], by simp [Pass.log]⟩
  elsewhere {hash} different := by
    have written := Blackboard.states_setState pass.board node.hash state hash
    rw [if_neg different] at written
    change board.states[hash]? = _
    rw [states]
    exact written
  here := by
    have written :=
      Blackboard.states_setState pass.board node.hash state node.hash
    rw [if_pos rfl] at written
    refine .inr ⟨state, ?_, running, fits⟩
    change board.states[node.hash]? = _
    rw [states]
    exact written

theorem updateState {change : NodeState → NodeState}
    (running : ∀ state, (change state).running = state.running)
    (shape : ∀ state, (change state).kind.shape = state.kind.shape) :
    Aside tree node pass (pass.updateState tree node change) :=
  of_write pass _ rfl rfl rfl (running _)
    (KindState.fits_of_shape (shape _) (Blackboard.fits_stateFor _ _ _))

theorem ensureState :
    Aside tree node pass (pass.ensureState tree node).2 :=
  updateState pass (fun _ => rfl) fun _ => rfl

theorem updateKind {change : KindState → Option KindState}
    (shape : ∀ {kind changed : KindState}, change kind = some changed →
      changed.shape = kind.shape) :
    Aside tree node pass (pass.updateKind tree node change) := by
  let state := pass.board.stateFor tree node
  have ensured : Aside tree node pass (pass.ensureState tree node).2 :=
    ensureState pass
  have fits : state.kind.fits node.kind = true :=
    Blackboard.fits_stateFor _ _ _
  have written : ((pass.ensureState tree node).2.board.stateFor tree node) =
      state := by
    refine Blackboard.stateFor_eq tree ?_ fits
    have present :=
      Blackboard.states_setState pass.board node.hash state node.hash
    rwa [if_pos rfl] at present
  cases changed : change state.kind with
  | none =>
      rw [updateKind_of_none changed]
      exact ensured.trans (note _ rfl)
  | some kind =>
      rw [updateKind_of_some changed]
      refine ensured.trans (of_write _ _ rfl rfl rfl ?_ ?_)
      · rfl
      · rw [written]
        exact KindState.fits_of_shape (shape changed) fits

theorem nextProbChild
    (prob : node.kind = .probSequence ∨ node.kind = .probSelector) :
    Aside tree node pass (pass.nextProbChild tree node).2 := by
  have fits : ∀ weights available running,
      (KindState.prob weights available running).fits node.kind = true := by
    intro weights available running
    rcases prob with kind | kind <;>
      simp [KindState.fits, KindState.shape, NodeKind.stateShape, kind]
  unfold Pass.nextProbChild
  cases present : pass.board.states[node.hash]? with
  | none => exact note _ rfl
  | some state =>
      dsimp only
      cases kind : state.kind with
      | prob weights available runningChild =>
          have current := Blackboard.stateFor_eq tree present
            (by rw [kind]; exact fits _ _ _)
          cases runningChild with
          | some index =>
              exact of_write pass
                { state with kind := .prob weights available none } rfl rfl rfl
                (by rw [current]) (fits _ _ _)
          | none =>
              dsimp only
              cases draw available pass.board.stream with
              | none => exact refl
              | some drawn =>
                  exact of_write pass
                    { state with kind := .prob weights drawn.pool none }
                    rfl rfl rfl (by rw [current]) (fits _ _ _)
      | _ => exact note _ rfl

theorem recordResult {spec : ParallelSpec} (isParallel : node.kind = .parallel spec)
    (index : Nat) (status : Status) :
    Aside tree node pass (pass.recordResult tree node index status).2 := by
  have fits : ∀ results spec,
      (KindState.parallel results spec).fits node.kind = true := by
    intro results spec
    simp [KindState.fits, KindState.shape, NodeKind.stateShape, isParallel]
  unfold Pass.recordResult
  cases present : pass.board.states[node.hash]? with
  | none => exact note _ rfl
  | some state =>
      dsimp only
      cases kind : state.kind with
      | parallel results spec =>
          have current := Blackboard.stateFor_eq tree present
            (by rw [kind]; exact fits _ _)
          exact of_write pass
            { state with
              kind := .parallel (results.set index (some status)) spec }
            rfl rfl rfl (by rw [current]) (fits _ _)
      | _ => exact note _ rfl

theorem prepareParallel :
    Aside tree node pass (pass.prepareParallel tree node).2 := by
  have ensured : Aside tree node pass (pass.ensureState tree node).2 :=
    ensureState pass
  have written : (pass.ensureState tree node).2.board.stateFor tree node =
      pass.board.stateFor tree node := by
    refine Blackboard.stateFor_eq tree ?_ (Blackboard.fits_stateFor _ _ _)
    have present := Blackboard.states_setState pass.board node.hash
      (pass.board.stateFor tree node) node.hash
    rwa [if_pos rfl] at present
  have fits := Blackboard.fits_stateFor pass.board tree node
  unfold Pass.prepareParallel
  dsimp only
  cases kind : (pass.ensureState tree node).1.kind with
  | parallel results spec =>
      refine ensured.trans (of_write _ _ rfl rfl rfl rfl ?_)
      have same : (pass.board.stateFor tree node).kind =
          .parallel results spec := kind
      rw [same] at fits
      exact fits
  | _ => exact ensured.trans (note _ rfl)

end Aside

end Pass

end BehaviorTree
