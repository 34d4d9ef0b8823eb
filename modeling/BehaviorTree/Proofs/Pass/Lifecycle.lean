import BehaviorTree.Proofs.Pass.Steps

/-!
# The lifecycle of a node

A tick of a node is refused, or it enters the node, updates it and leaves it.
Entering opens a node that is not running; leaving keeps a node running or
closes it.
-/

namespace BehaviorTree

namespace Pass

variable {α : Type}

/-- A tick beyond the step budget. -/
structure Refuses (tree : Tree) (node : Node) (before after : Pass α) :
    Prop where
  steps : after.steps = before.steps + 1
  depth : after.depth = before.depth
  runningNow : after.board.runningNow = before.board.runningNow
  runningPre : after.board.runningPre = before.board.runningPre
  states : after.board.states = before.board.states
  log : after.log = before.log ++ [.refused (tree.refTo node)]

/-- The begin of a tick within the budget, up to the update of the node. -/
structure Enters (tree : Tree) (node : Node) (before after : Pass α) :
    Prop where
  steps : after.steps = before.steps + 1
  depth : after.depth = before.depth
  runningNow : after.board.runningNow = before.board.runningNow
  runningPre : after.board.runningPre = before.board.runningPre
  log : after.log = before.log ++ .entered (tree.refTo node) ::
    if (before.board.stateFor tree node).running then []
    else [.opened (tree.refTo node)]
  elsewhere : ∀ {hash : NodeHash}, hash ≠ node.hash →
    after.board.states[hash]? = before.board.states[hash]?
  here : ∃ state, after.board.states[node.hash]? = some state ∧
    state.running = (before.board.stateFor tree node).running ∧
    state.kind =
      if (before.board.stateFor tree node).running then
        (before.board.stateFor tree node).kind
      else openedKind tree node
        (NodeState.syncKind (before.board.stateFor tree node).kind node.kind)

/-- The end of a tick within the budget, after the update of the node. -/
structure Leaves (tree : Tree) (node : Node) (status : Status)
    (before after : Pass α) : Prop where
  steps : after.steps = before.steps
  depth : after.depth = before.depth
  runningNow : after.board.runningNow =
    if status = .running ∧ tree.refTo node ∉ before.board.runningNow then
      before.board.runningNow ++ [tree.refTo node]
    else before.board.runningNow
  runningPre : after.board.runningPre = before.board.runningPre
  log : after.log = before.log ++ .finished (tree.refTo node) status ::
    if status = .running then [] else [.closed (tree.refTo node)]
  elsewhere : ∀ {hash : NodeHash}, hash ≠ node.hash →
    after.board.states[hash]? = before.board.states[hash]?
  here : ∃ state, after.board.states[node.hash]? = some state ∧
    (state.running = true ↔ status = .running) ∧
    state.kind =
      if status = .running then (before.board.stateFor tree node).kind
      else closedKind (before.board.stateFor tree node).kind

/-- A tick is counted, and refused if the budget does not cover it. -/
theorem takeStep_cases (pass : Pass α) (config : HandlerConfig) (tree : Tree)
    (node : Node) :
    ((∀ budget, config.maxStepsPerTick = some budget →
        pass.steps < budget.toNat) ∧
      pass.takeStep config (tree.refTo node) = (true,
        { pass with steps := pass.steps + 1 }.note
          (.entered (tree.refTo node)))) ∨
    ∃ after, pass.takeStep config (tree.refTo node) = (false, after) ∧
      Refuses tree node pass after := by
  unfold takeStep
  cases config.maxStepsPerTick with
  | none => exact .inl ⟨nofun, rfl⟩
  | some budget =>
      by_cases within : pass.steps + 1 ≤ budget.toNat
      · refine .inl ⟨?_, by simp [within]⟩
        rintro _ ⟨⟩
        exact within
      · right
        dsimp only
        rw [if_neg within]
        split
        · exact ⟨_, rfl, rfl, rfl, rfl, rfl, rfl, log_note _ _⟩
        · exact ⟨_, rfl, rfl, rfl, rfl, rfl, rfl, log_note _ _⟩

/-- The pass in which a tick within the budget is taken. -/
def accept (pass : Pass α) (ref : NodeRef) : Pass α :=
  { pass with steps := pass.steps + 1 }.note (.entered ref)

/-- The pass in which the first tick beyond the budget is refused. -/
def cut (pass : Pass α) (budget : UInt64) (ref : NodeRef) : Pass α :=
  { ({ pass with steps := pass.steps + 1 }.note (.refused ref)).addError
      (budgetMessage budget ref.hash) with
    exhausted := true }

theorem takeStep_of_covered {pass : Pass α} {config : HandlerConfig}
    (covered : ∀ budget, config.maxStepsPerTick = some budget →
      pass.steps < budget.toNat) (ref : NodeRef) :
    pass.takeStep config ref = (true, pass.accept ref) := by
  unfold takeStep
  cases limited : config.maxStepsPerTick with
  | none => rfl
  | some budget => exact if_pos (covered budget limited)

theorem takeStep_of_exceeded {pass : Pass α} {config : HandlerConfig}
    {budget : UInt64} (limited : config.maxStepsPerTick = some budget)
    (exceeded : budget.toNat ≤ pass.steps) (fresh : pass.exhausted = false)
    (ref : NodeRef) :
    pass.takeStep config ref = (false, pass.cut budget ref) := by
  unfold takeStep
  rw [limited]
  dsimp only
  rw [if_neg (by omega), if_neg (by simp [note, fresh])]
  rfl

/-- The state of a node is written and entries are added to the journal. -/
structure Writes (tree : Tree) (node : Node) (entries : List Activity)
    (state : NodeState) (before after : Pass α) : Prop where
  steps : after.steps = before.steps
  depth : after.depth = before.depth
  runningNow : after.board.runningNow = before.board.runningNow
  runningPre : after.board.runningPre = before.board.runningPre
  log : after.log = before.log ++ entries
  elsewhere : ∀ {hash : NodeHash}, hash ≠ node.hash →
    after.board.states[hash]? = before.board.states[hash]?
  here : after.board.states[node.hash]? = some state

namespace Writes

variable {tree : Tree} {node : Node} {before middle after : Pass α}
  {entries later : List Activity} {first second : NodeState}

theorem trans (earlier : Writes tree node entries first before middle)
    (writes : Writes tree node later second middle after) :
    Writes tree node (entries ++ later) second before after where
  steps := writes.steps.trans earlier.steps
  depth := writes.depth.trans earlier.depth
  runningNow := writes.runningNow.trans earlier.runningNow
  runningPre := writes.runningPre.trans earlier.runningPre
  log := by rw [writes.log, earlier.log, List.append_assoc]
  elsewhere different :=
    (writes.elsewhere different).trans (earlier.elsewhere different)
  here := writes.here

theorem stateFor (writes : Writes tree node entries first before after)
    (fits : first.kind.fits node.kind = true) :
    after.board.stateFor tree node = first :=
  Blackboard.stateFor_eq tree writes.here fits

theorem isRunning (writes : Writes tree node entries first before after) :
    after.board.isRunning node.hash = first.running := by
  rw [Blackboard.isRunning, writes.here]

variable (pass : Pass α)

theorem updateState (change : NodeState → NodeState) :
    Writes tree node [] (change (pass.board.stateFor tree node)) pass
      (pass.updateState tree node change) where
  steps := rfl
  depth := rfl
  runningNow := rfl
  runningPre := rfl
  log := (List.append_nil _).symm
  elsewhere {hash} different := by
    have present := Blackboard.states_setState pass.board node.hash
      (change (pass.board.stateFor tree node)) hash
    rwa [if_neg different] at present
  here := by
    have present := Blackboard.states_setState pass.board node.hash
      (change (pass.board.stateFor tree node)) node.hash
    rwa [if_pos rfl] at present

theorem note (activity : Activity) (change : NodeState → NodeState) :
    Writes tree node [activity] (change (pass.board.stateFor tree node)) pass
      ((pass.note activity).updateState tree node change) :=
  have writes := updateState (pass.note activity) change
  { writes with log := log_note pass activity }

theorem announced (activity : Activity) (config : HandlerConfig) (tag : String)
    (change : NodeState → NodeState) :
    Writes tree node [activity] (change (pass.board.stateFor tree node)) pass
      (((pass.note activity).emitLifecycle config tag node).updateState tree
        node change) := by
  have writes : Writes tree node [activity] _ pass _ :=
    note pass activity change
  unfold emitLifecycle
  split
  · exact { writes with }
  · exact writes

theorem traced (writes : Writes tree node entries first before after)
    (config : HandlerConfig) (tag : String) :
    Writes tree node entries first before
      (after.emitLifecycle config tag node) := by
  unfold emitLifecycle
  split
  · exact { writes with }
  · exact writes

end Writes

variable (pass : Pass α) (config : HandlerConfig) (tree : Tree) (node : Node)

theorem writes_openNode :
    Writes tree node [.opened (tree.refTo node)]
      { (pass.board.stateFor tree node).syncConfig node with
        kind := openedKind tree node
          (NodeState.syncKind (pass.board.stateFor tree node).kind node.kind) }
      pass (pass.openNode config tree node) :=
  Writes.announced pass _ config "bt.open" fun state =>
    let state := state.syncConfig node
    { state with kind := openedKind tree node state.kind }

theorem writes_closeNode :
    Writes tree node [.closed (tree.refTo node)]
      { pass.board.stateFor tree node with
        running := false
        kind := closedKind (pass.board.stateFor tree node).kind }
      pass (pass.closeNode config tree node) :=
  (Writes.note pass _ fun state =>
    { state with running := false, kind := closedKind state.kind }).traced config
    "bt.close"

theorem writes_abandonNode :
    Writes tree node
      [.abandoned (tree.refTo node), .closed (tree.refTo node)]
      { pass.board.stateFor tree node with
        running := false
        kind := closedKind (pass.board.stateFor tree node).kind }
      pass (pass.abandonNode config tree node) := by
  have closes : ∀ announced : Pass α,
      announced.log = pass.log ++ [.abandoned (tree.refTo node)] →
      (announced.closeNode config tree node).log =
        pass.log ++ [.abandoned (tree.refTo node), .closed (tree.refTo node)] := by
    intro announced log
    rw [(announced.writes_closeNode config tree node).log, log,
      List.append_assoc]
    rfl
  have noted := log_note pass (.abandoned (tree.refTo node))
  unfold abandonNode emitLifecycle
  split
  · exact { writes_closeNode _ config tree node with log := closes _ noted }
  · exact { writes_closeNode _ config tree node with log := closes _ noted }

end Pass

namespace PassM

open BehaviorTree.Pass

variable {α β γ : Type}

theorem bind_apply (first : PassM α β) (next : β → PassM α γ)
    (pass : Pass α) :
    (first >>= next) pass =
      (first pass).bind fun result => next result.1 result.2 := by
  change StateT.bind first next pass = _
  unfold StateT.bind
  cases first pass <;> rfl

theorem modify_bind (change : Pass α → Pass α) (next : PUnit → PassM α β)
    (pass : Pass α) :
    ((modify change : PassM α PUnit) >>= next) pass = next ⟨⟩ (change pass) :=
  rfl

theorem modifyGet_bind (change : Pass α → β × Pass α) (next : β → PassM α γ)
    (pass : Pass α) :
    ((modifyGet change : PassM α β) >>= next) pass =
      next (change pass).1 (change pass).2 :=
  rfl

theorem get_bind (next : Pass α → PassM α β) (pass : Pass α) :
    ((get : PassM α (Pass α)) >>= next) pass = next pass pass :=
  rfl

/-- The begin of an activation, up to the update. -/
def enter (setting : Setting α) (tree : Tree) (node : Node) (pass : Pass α) :
    Pass α :=
  let (wasRunning, counted) := pass.countTick tree node
  if wasRunning then counted else counted.openNode setting.config tree node

/-- The end of an activation, after the update. -/
def leave (setting : Setting α) (tree : Tree) (node : Node) (status : Status)
    (pass : Pass α) : Pass α :=
  let finished := pass.note (.finished (tree.refTo node) status)
  if status = .running then finished.keepRunning tree node
  else finished.closeNode setting.config tree node

theorem activate_apply (setting : Setting α) (fuel : Nat) (visit : Visit α)
    (tree : Tree) (node : Node) (pass : Pass α) :
    activate setting fuel visit tree node pass =
      (update setting fuel visit tree node (enter setting tree node pass)).map
        fun result => (result.1, leave setting tree node result.1 result.2) := by
  have settled : ∀ opened : Pass α,
      (do
        let status ← update setting fuel visit tree node
        modify (·.note (.finished (tree.refTo node) status))
        if status = .running then modify (·.keepRunning tree node)
        else modify (·.closeNode setting.config tree node)
        return status : PassM α Status) opened =
      (update setting fuel visit tree node opened).map
        fun result => (result.1, leave setting tree node result.1 result.2) := by
    intro opened
    rw [bind_apply]
    cases update setting fuel visit tree node opened with
    | none => rfl
    | some result =>
        rw [Option.bind_some, modify_bind, Option.map_some, leave]
        by_cases running : result.1 = .running
        · rw [if_pos running, if_pos running]
          rfl
        · rw [if_neg running, if_neg running]
          rfl
  unfold activate
  rw [modifyGet_bind, enter]
  cases pass.countTick tree node with
  | mk wasRunning counted =>
      cases wasRunning with
      | true =>
          rw [Bool.not_true, if_neg Bool.false_ne_true]
          exact settled counted
      | false =>
          rw [Bool.not_false, if_pos rfl]
          exact settled (counted.openNode setting.config tree node)

theorem enters_enter (setting : Setting α) (tree : Tree) (node : Node)
    (pass : Pass α) :
    Enters tree node pass (enter setting tree node
      ({ pass with steps := pass.steps + 1 }.note
        (.entered (tree.refTo node)))) := by
  let noted : Pass α := { pass with steps := pass.steps + 1 }.note
    (.entered (tree.refTo node))
  have notedLog : noted.log = pass.log ++ [.entered (tree.refTo node)] :=
    log_note _ _
  have counts : Writes tree node [] _ noted (noted.countTick tree node).2 :=
    Writes.updateState noted _
  have counted := counts.stateFor (Blackboard.fits_stateFor _ _ _)
  unfold enter
  change Enters tree node pass
    (if (pass.board.stateFor tree node).running then
        (noted.countTick tree node).2
      else (noted.countTick tree node).2.openNode setting.config tree node)
  cases wasRunning : (pass.board.stateFor tree node).running with
  | true =>
      rw [if_pos rfl]
      refine
        { counts with
          steps := rfl
          log := by rw [wasRunning]; exact notedLog
          here := ⟨_, counts.here, rfl, ?_⟩ }
      rw [if_pos wasRunning]
      rfl
  | false =>
      rw [if_neg Bool.false_ne_true]
      have opens := counts.trans (writes_openNode
        (noted.countTick tree node).2 setting.config tree node)
      refine
        { opens with
          steps := opens.steps
          log := ?_
          here := ⟨_, opens.here, ?_, ?_⟩ }
      · rw [wasRunning, opens.log, notedLog, List.append_assoc]
        rfl
      · change ((noted.countTick tree node).2.board.stateFor tree node).running =
          _
        rw [counted]
        rfl
      · rw [wasRunning, if_neg Bool.false_ne_true, counted]
        rfl

theorem leaves_keepRunning (tree : Tree) (node : Node) (pass : Pass α) :
    Leaves tree node .running pass
      ((pass.note (.finished (tree.refTo node) .running)).keepRunning tree
        node) := by
  let flagged := (pass.note (.finished (tree.refTo node) .running)).updateState
    tree node fun state => { state with running := true }
  have flags : Writes tree node [.finished (tree.refTo node) .running]
      { pass.board.stateFor tree node with running := true } pass flagged :=
    Writes.note pass _ fun state => { state with running := true }
  change Leaves tree node .running pass
    { flagged with board := flagged.board.noteRunning (tree.refTo node) }
  unfold Blackboard.noteRunning
  rw [flags.runningNow]
  by_cases noted : tree.refTo node ∈ pass.board.runningNow
  · rw [if_pos noted]
    refine
      { flags with
        runningNow := ?_
        here := ⟨_, flags.here, by simp, (if_pos rfl).symm⟩ }
    rw [if_neg fun holds => holds.2 noted]
    exact flags.runningNow
  · rw [if_neg noted]
    refine
      { flags with
        runningNow := ?_
        here := ⟨_, flags.here, by simp, (if_pos rfl).symm⟩ }
    rw [if_pos ⟨rfl, noted⟩]

theorem leaves_leave (setting : Setting α) (tree : Tree) (node : Node)
    (status : Status) (pass : Pass α) :
    Leaves tree node status pass (leave setting tree node status pass) := by
  unfold leave
  by_cases running : status = .running
  · rw [running]
    exact leaves_keepRunning tree node pass
  rw [if_neg running]
  have closes := writes_closeNode (pass.note (.finished (tree.refTo node) status))
    setting.config tree node
  refine
    { closes with
      runningNow := ?_
      log := ?_
      here := ⟨_, closes.here, by simp [running], (if_neg running).symm⟩ }
  · rw [if_neg fun holds => running holds.1]
    exact closes.runningNow
  · rw [if_neg running, closes.log, log_note, List.append_assoc]
    rfl

theorem tick_of_covered {setting : Setting α} {before : Pass α}
    (covered : ∀ budget, setting.config.maxStepsPerTick = some budget →
      before.steps < budget.toNat) (fuel : Nat) (tree : Tree) (node : Node) :
    tick setting (fuel + 1) tree node before =
      (update setting fuel (tick setting fuel) tree node
        (enter setting tree node (before.accept (tree.refTo node)))).map
        fun result => (result.1, leave setting tree node result.1 result.2) := by
  change (if (before.takeStep setting.config (tree.refTo node)).1 then
      activate setting fuel (tick setting fuel) tree node
    else return .error : PassM α Status)
      (before.takeStep setting.config (tree.refTo node)).2 = _
  rw [takeStep_of_covered covered, if_pos rfl, activate_apply]

theorem updated_of_tick {setting : Setting α} {tree : Tree} {node : Node}
    {before after : Pass α} {fuel : Nat} {status : Status}
    (covered : ∀ budget, setting.config.maxStepsPerTick = some budget →
      before.steps < budget.toNat)
    (ended : tick setting (fuel + 1) tree node before = some (status, after)) :
    ∃ body, update setting fuel (tick setting fuel) tree node
        (enter setting tree node (before.accept (tree.refTo node))) =
          some (status, body) ∧
      after = leave setting tree node status body := by
  rw [tick_of_covered covered] at ended
  obtain ⟨⟨found, body⟩, updated, same⟩ := Option.map_eq_some_iff.mp ended
  cases same
  exact ⟨body, updated, rfl⟩

theorem tick_of_exceeded {setting : Setting α} {before : Pass α}
    {budget : UInt64} (limited : setting.config.maxStepsPerTick = some budget)
    (exceeded : budget.toNat ≤ before.steps) (fresh : before.exhausted = false)
    (fuel : Nat) (tree : Tree) (node : Node) :
    tick setting (fuel + 1) tree node before =
      some (.error, before.cut budget (tree.refTo node)) := by
  change (if (before.takeStep setting.config (tree.refTo node)).1 then
      activate setting fuel (tick setting fuel) tree node
    else return .error : PassM α Status)
      (before.takeStep setting.config (tree.refTo node)).2 = _
  rw [takeStep_of_exceeded limited exceeded fresh, if_neg Bool.false_ne_true]
  rfl

/-- A tick is refused or covered by the budget, whatever the fuel. -/
theorem tick_eq (setting : Setting α) (tree : Tree) (node : Node)
    (before : Pass α) :
    ((∀ budget, setting.config.maxStepsPerTick = some budget →
        before.steps < budget.toNat) ∧
      ∃ opened, Enters tree node before opened ∧
        ∀ fuel, tick setting (fuel + 1) tree node before =
          (update setting fuel (tick setting fuel) tree node opened).map
            fun result =>
              (result.1, leave setting tree node result.1 result.2)) ∨
    ∃ after, Refuses tree node before after ∧
      ∀ fuel, tick setting (fuel + 1) tree node before =
        some (.error, after) := by
  have starts : ∀ fuel, tick setting (fuel + 1) tree node before =
      (if (before.takeStep setting.config (tree.refTo node)).1 then
        activate setting fuel (tick setting fuel) tree node
      else return .error : PassM α Status)
        (before.takeStep setting.config (tree.refTo node)).2 :=
    fun _ => rfl
  rcases before.takeStep_cases setting.config tree node with
    ⟨covered, taken⟩ | ⟨refused, taken, refuses⟩
  · exact .inl ⟨covered, _, enters_enter setting tree node before,
      fun fuel => tick_of_covered covered fuel tree node⟩
  · refine .inr ⟨refused, refuses, fun fuel => ?_⟩
    rw [starts, taken, if_neg Bool.false_ne_true]
    rfl

/-- A tick is refused, or enters its node, updates and leaves it. -/
theorem tick_cases {setting : Setting α} {fuel : Nat} {tree : Tree}
    {node : Node} {before after : Pass α} {status : Status}
    (ended : tick setting (fuel + 1) tree node before = some (status, after)) :
    (status = .error ∧ Refuses tree node before after) ∨
    ∃ opened body, Enters tree node before opened ∧
      update setting fuel (tick setting fuel) tree node opened =
        some (status, body) ∧
      Leaves tree node status body after := by
  rcases tick_eq setting tree node before with
    ⟨_, opened, enters, starts⟩ | ⟨refused, refuses, starts⟩
  · rw [starts] at ended
    obtain ⟨⟨found, body⟩, updated, same⟩ := Option.map_eq_some_iff.mp ended
    cases same
    exact .inr ⟨opened, body, enters, updated,
      leaves_leave setting tree node found body⟩
  · rw [starts] at ended
    cases ended
    exact .inl ⟨rfl, refuses⟩

end PassM

end BehaviorTree
