import BehaviorTree.Proofs.Pass.Relating
import BehaviorTree.Proofs.Pass.Ticking

/-!
# Passes seen through a view

A view shows the states and the running nodes of some hashes, and the tracer or
an empty one.  If it shows every node that a pass can meet, then the pass goes
in view as it goes on the whole blackboard: looking after a step and stepping
after a look come to the same.
-/

namespace BehaviorTree

/-- What is looked at: the nodes of some hashes, and the tracer or not. -/
structure View where
  visible : NodeHash → Bool
  traced : Bool

/-- A configuration without anything to trace. -/
def HandlerConfig.quiet (config : HandlerConfig) : HandlerConfig :=
  { config with traceLifecycle := false, recordTrace := false }

/-- Who does not look at the tracer does not trace. -/
def HandlerConfig.through (config : HandlerConfig) (view : View) :
    HandlerConfig :=
  if view.traced then config else config.quiet

def Setting.through {α : Type} (setting : Setting α) (view : View) : Setting α :=
  { setting with config := setting.config.through view }

namespace HandlerConfig

variable (config : HandlerConfig) (view : View)

@[simp] theorem maxStepsPerTick_through :
    (config.through view).maxStepsPerTick = config.maxStepsPerTick := by
  rw [through]
  split <;> rfl

@[simp] theorem maxTransitionDepth_through :
    (config.through view).maxTransitionDepth = config.maxTransitionDepth := by
  rw [through]
  split <;> rfl

end HandlerConfig

namespace Blackboard

def through (board : Blackboard) (view : View) : Blackboard :=
  { board with
    states := board.states.filter fun hash _ => view.visible hash
    runningNow := board.runningNow.filter fun ref => view.visible ref.hash
    runningPre := board.runningPre.filter fun ref => view.visible ref.hash
    tracer := if view.traced then board.tracer else {} }

variable {view : View} (board : Blackboard) {hash : NodeHash}

theorem getElem?_through (view : View) (hash : NodeHash) :
    (board.through view).states[hash]? =
      if view.visible hash then board.states[hash]? else none := by
  rw [through, Std.ExtTreeMap.getElem?_filter']
  cases board.states[hash]? with
  | none => rw [Option.filter_none, ite_self]
  | some state => exact Option.filter_some

theorem notRevisited_through :
    (board.through view).notRevisited =
      board.notRevisited.filter fun ref => view.visible ref.hash := by
  simp only [notRevisited, through, List.filter_filter]
  apply List.filter_congr
  intro ref _
  by_cases isVisible : view.visible ref.hash = true
  · simp [isVisible]
  · simp [isVisible]

section Visible

variable (isVisible : view.visible hash = true)
include isVisible

theorem states_through :
    (board.through view).states[hash]? = board.states[hash]? := by
  rw [getElem?_through, if_pos isVisible]

theorem isRunning_through :
    (board.through view).isRunning hash = board.isRunning hash := by
  rw [isRunning, isRunning, board.states_through isVisible]

theorem setState_through (state : NodeState) :
    (board.through view).setState hash state =
      (board.setState hash state).through view := by
  simp only [setState, through, mk.injEq, true_and, and_true]
  apply Std.ExtTreeMap.ext_getElem?
  intro other
  simp only [Std.ExtTreeMap.getElem?_insert, Std.ExtTreeMap.getElem?_filter',
    Std.LawfulEqCmp.compare_eq_iff_eq]
  by_cases same : hash = other
  · subst same
    rw [if_pos rfl, if_pos rfl, Option.filter_some, if_pos isVisible]
  · simp [same]

end Visible

section Met

variable {tree : Tree} {node : Node} (isVisible : view.visible node.hash = true)
include isVisible

theorem stateFor_through :
    (board.through view).stateFor tree node = board.stateFor tree node := by
  rw [stateFor, stateFor, board.states_through isVisible]

theorem updateState_through (change : NodeState → NodeState) :
    (board.through view).updateState tree node change =
      (board.updateState tree node change).through view := by
  rw [updateState, board.stateFor_through isVisible,
    board.setState_through isVisible]
  rfl

theorem noteRunning_through :
    (board.through view).noteRunning (tree.refTo node) =
      (board.noteRunning (tree.refTo node)).through view := by
  have shown : tree.refTo node ∈ (board.through view).runningNow ↔
      tree.refTo node ∈ board.runningNow := by
    simp [through, Tree.refTo, isVisible]
  rw [noteRunning, noteRunning]
  simp only [shown]
  split
  · rfl
  · simp [through, Tree.refTo, isVisible]

end Met

end Blackboard

namespace Pass

variable {α : Type}

def through (pass : Pass α) (view : View) : Pass α :=
  { pass with board := pass.board.through view }

variable {view : View} (pass : Pass α)

theorem emit_through (tag : String) (hash : NodeHash) (detail : String) :
    (pass.through view).emit tag hash detail =
      (pass.emit tag hash detail).through view := by
  simp only [emit, through, Blackboard.through]
  split <;> rfl

theorem emitLifecycle_through (config : HandlerConfig) (tag : String)
    (node : Node) :
    (pass.through view).emitLifecycle (config.through view) tag node =
      (pass.emitLifecycle config tag node).through view := by
  cases isTraced : view.traced with
  | true =>
      rw [HandlerConfig.through, if_pos isTraced, emitLifecycle, emitLifecycle,
        emit_through]
      split <;> rfl
  | false =>
      have unseen : (pass.emit tag node.hash node.name).through view =
          pass.through view := by
        simp [emit, through, Blackboard.through, isTraced]
      have same : (pass.emitLifecycle config tag node).through view =
          pass.through view := by
        rw [emitLifecycle]
        split
        · exact unseen
        · rfl
      rw [same, HandlerConfig.through, isTraced]
      rfl

/-- A result and the pass after it, as they are seen through a view. -/
def seen {β : Type} (view : View) : β × Pass α → β × Pass α :=
  Prod.map id (·.through view)

theorem takeStep_through (config : HandlerConfig) (ref : NodeRef) :
    (pass.through view).takeStep (config.through view) ref =
      seen view (pass.takeStep config ref) := by
  rw [takeStep, takeStep, config.maxStepsPerTick_through]
  cases config.maxStepsPerTick with
  | none => rfl
  | some budget =>
      dsimp only
      rw [apply_ite (seen view), apply_ite (seen view)]
      rfl

section Met

variable {tree : Tree} {node : Node} (isVisible : view.visible node.hash = true)
include isVisible

theorem updateState_through (change : NodeState → NodeState) :
    (pass.through view).updateState tree node change =
      (pass.updateState tree node change).through view := by
  rw [updateState, updateState, through, pass.board.updateState_through isVisible]
  rfl

theorem ensureState_through :
    (pass.through view).ensureState tree node =
      seen view (pass.ensureState tree node) := by
  rw [ensureState, pass.updateState_through isVisible, through,
    pass.board.stateFor_through isVisible]
  rfl

theorem updateKind_through (change : KindState → Option KindState) :
    (pass.through view).updateKind tree node change =
      (pass.updateKind tree node change).through view := by
  rw [updateKind, updateKind, pass.ensureState_through isVisible]
  dsimp only [seen, Prod.map, id]
  split
  · exact updateState_through _ isVisible _
  · rfl

theorem countTick_through :
    (pass.through view).countTick tree node =
      seen view (pass.countTick tree node) := by
  rw [countTick, pass.updateState_through isVisible, through,
    pass.board.stateFor_through isVisible]
  rfl

theorem openNode_through (config : HandlerConfig) :
    (pass.through view).openNode (config.through view) tree node =
      (pass.openNode config tree node).through view := by
  rw [openNode, openNode, ← updateState_through _ isVisible,
    ← emitLifecycle_through]
  rfl

theorem closeNode_through (config : HandlerConfig) :
    (pass.through view).closeNode (config.through view) tree node =
      (pass.closeNode config tree node).through view := by
  rw [closeNode, closeNode, ← emitLifecycle_through,
    ← updateState_through _ isVisible]
  rfl

theorem abandonNode_through (config : HandlerConfig) :
    (pass.through view).abandonNode (config.through view) tree node =
      (pass.abandonNode config tree node).through view := by
  rw [abandonNode, abandonNode, ← closeNode_through _ isVisible,
    ← emitLifecycle_through]
  rfl

theorem keepRunning_through :
    (pass.through view).keepRunning tree node =
      (pass.keepRunning tree node).through view := by
  simp only [keepRunning, pass.updateState_through isVisible]
  rw [through, Blackboard.noteRunning_through _ isVisible]
  rfl

theorem parallelResults_through :
    (pass.through view).parallelResults node = pass.parallelResults node := by
  rw [parallelResults, through, pass.board.states_through isVisible]
  rfl

theorem nextProbChild_through :
    (pass.through view).nextProbChild tree node =
      seen view (pass.nextProbChild tree node) := by
  rw [nextProbChild, nextProbChild, through, pass.board.states_through isVisible]
  cases pass.board.states[node.hash]? with
  | none => rfl
  | some state =>
      dsimp only
      split
      · simp only [pass.board.setState_through isVisible]
        rfl
      · simp only [pass.board.setState_through isVisible]
        dsimp only [Blackboard.through]
        split <;> rfl
      · rfl

theorem recordResult_through (index : Nat) (status : Status) :
    (pass.through view).recordResult tree node index status =
      seen view (pass.recordResult tree node index status) := by
  rw [recordResult, recordResult, through, pass.board.states_through isVisible]
  cases pass.board.states[node.hash]? with
  | none => rfl
  | some state =>
      dsimp only
      split
      · simp only [pass.board.setState_through isVisible]
        rfl
      · rfl

theorem prepareParallel_through :
    (pass.through view).prepareParallel tree node =
      seen view (pass.prepareParallel tree node) := by
  rw [prepareParallel, prepareParallel, pass.ensureState_through isVisible]
  dsimp only [seen, Prod.map, id]
  split
  · rw [updateState_through _ isVisible]
  · rfl

end Met

end Pass

/-- A view that shows all nodes that a pass can meet: it starts at roots and at
nodes of trees, and goes on to children and targets. -/
structure View.Covers (view : View) (forest : Forest)
    (met : Tree → Node → Prop) : Prop where
  visible : ∀ {tree : Tree} {node : Node}, met tree node →
    view.visible node.hash = true
  registered : ∀ {id : TreeId} {hash : NodeHash} {tree : Tree} {node : Node},
    forest.get? id = some tree → tree.nodes[hash]? = some node →
    view.visible hash = true ∧ met tree node
  root : ∀ {id : TreeId} {tree : Tree}, forest.get? id = some tree →
    met tree tree.rootNode
  child : ∀ {tree : Tree} {node child : Node} {index : Nat}, met tree node →
    tree.childAt node index = some child → met tree child

theorem View.covers_of_all {view : View}
    (all : ∀ hash, view.visible hash = true) (forest : Forest) :
    view.Covers forest fun _ _ => True where
  visible _ := all _
  registered _ _ := ⟨all _, trivial⟩
  root _ := trivial
  child _ _ := trivial

/-- Nodes that are not shown are not in the forest, so nothing is lost if they
are left out when nodes are abandoned. -/
theorem Pass.abandonEach_through {α : Type} {view : View} {setting : Setting α}
    {met : Tree → Node → Prop} (covers : view.Covers setting.forest met)
    (refs : List NodeRef) (pass : Pass α) :
    (pass.through view).abandonEach (setting.through view)
        (refs.filter fun ref => view.visible ref.hash) =
      (pass.abandonEach setting refs).through view := by
  induction refs generalizing pass with
  | nil => rfl
  | cons ref rest induction =>
      rw [abandonEach]
      by_cases isVisible : view.visible ref.hash = true
      · rw [List.filter_cons, if_pos isVisible, abandonEach, ← induction]
        congr 1
        have sameForest : (setting.through view).forest = setting.forest := rfl
        rw [sameForest]
        cases registered : setting.forest.get? ref.tree with
        | none => rfl
        | some tree =>
            dsimp only
            cases inTree : tree.nodes[ref.hash]? with
            | none => rfl
            | some node =>
                have shown := covers.visible (covers.registered registered inTree).2
                dsimp only
                rw [apply_ite (through · view), ← abandonNode_through _ shown]
                simp only [through, pass.board.isRunning_through isVisible]
                rfl
      · rw [List.filter_cons, if_neg isVisible]
        cases registered : setting.forest.get? ref.tree with
        | none => exact induction pass
        | some tree =>
            dsimp only
            cases inTree : tree.nodes[ref.hash]? with
            | none => exact induction pass
            | some node =>
                exact absurd (covers.registered registered inTree).1 isVisible

theorem Setting.alike_through {α : Type} (setting : Setting α) (view : View) :
    setting.Alike (setting.through view) :=
  ⟨rfl, rfl, setting.config.maxTransitionDepth_through view⟩

/-- The second pass is what a view shows of the first. -/
def Pass.Shows {α : Type} (view : View) (pass shown : Pass α) : Prop :=
  shown = pass.through view

theorem Pass.congruence_shows {α : Type} (view : View) :
    Congruence (Shows view : Pass α → Pass α → Prop) where
  agent shows := shows ▸ rfl
  globals shows := shows ▸ rfl
  depth shows := shows ▸ rfl
  setAgent _ shows := shows ▸ rfl
  setGlobals _ shows := shows ▸ rfl
  setDepth _ shows := shows ▸ rfl
  emit _ _ _ shows := shows ▸ emit_through _ _ _ _
  ran _ shows := shows ▸ rfl

namespace PassM

open BehaviorTree.Pass

variable {α β : Type} {view : View}

/-- What a view shows of `run` is `shown`. -/
abbrev Seen (view : View) (run shown : PassM α β) : Prop :=
  Related (Shows view) run shown

theorem seen_modify {change shownChange : Pass α → Pass α}
    (same : ∀ pass, shownChange (pass.through view) = (change pass).through view) :
    Seen view (modify change) (modify shownChange) :=
  related_modify fun {pass _} shows => by rw [shows]; exact same pass

theorem seen_modifyGet {change shownChange : Pass α → β × Pass α}
    (same : ∀ pass, shownChange (pass.through view) = seen view (change pass)) :
    Seen view (modifyGet change) (modifyGet shownChange) :=
  related_modifyGet fun {pass _} shows => by
    rw [shows, same pass]
    exact ⟨rfl, rfl⟩

theorem Seen.apply_through {run shown : PassM α β} (sees : Seen view run shown)
    (pass : Pass α) : shown (pass.through view) = (run pass).map (seen view) := by
  have ran := sees pass _ rfl
  generalize run pass = outcome at ran ⊢
  generalize shown (pass.through view) = shownOutcome at ran ⊢
  cases ran with
  | none => rfl
  | some ran => exact congrArg some (Prod.ext ran.1 ran.2)

theorem seen_misfit {tree : Tree} {node : Node} :
    Seen view (modify (·.note (.misfit (tree.refTo node))) : PassM α Unit)
      (modify (·.note (.misfit (tree.refTo node)))) :=
  seen_modify fun _ => rfl

theorem seen_scanMem {tickAt shownAt : Nat → PassM α Status}
    {record shownRecord : Nat → PassM α Unit}
    (ticks : ∀ index, Seen view (tickAt index) (shownAt index))
    (records : ∀ index, Seen view (record index) (shownRecord index))
    (goOn : Status) (indices : List Nat) :
    Seen view (scanMem tickAt record goOn indices)
      (scanMem shownAt shownRecord goOn indices) := by
  induction indices with
  | nil => exact related_pure _
  | cons index rest induction =>
      refine (ticks index).bind fun status => ?_
      split
      · exact (records index).bind fun _ => related_pure _
      · split
        · exact induction
        · exact related_pure _

section Node

variable {tree : Tree} {node : Node} (isVisible : view.visible node.hash = true)
include isVisible

theorem seen_ensureState :
    Seen view (modifyGet (·.ensureState tree node) : PassM α NodeState)
      (modifyGet (·.ensureState tree node)) :=
  seen_modifyGet fun pass => pass.ensureState_through isVisible

theorem seen_updateKind (change : KindState → Option KindState) :
    Seen view (modify (·.updateKind tree node change) : PassM α Unit)
      (modify (·.updateKind tree node change)) :=
  seen_modify fun pass => pass.updateKind_through isVisible change

theorem seen_drawLoop {tickAt shownAt : Nat → PassM α Status}
    (ticks : ∀ index, Seen view (tickAt index) (shownAt index)) (goOn : Status)
    (fuel : Nat) :
    Seen view (drawLoop tickAt tree node goOn fuel)
      (drawLoop shownAt tree node goOn fuel) := by
  induction fuel with
  | zero => exact related_outOfFuel
  | succ fuel induction =>
      refine (seen_modifyGet fun pass =>
        pass.nextProbChild_through isVisible).bind fun drawn => ?_
      cases drawn with
      | none => exact related_pure _
      | some index =>
          refine (ticks index).bind fun status => ?_
          split
          · exact (seen_updateKind isVisible _).bind fun _ => related_pure _
          · split
            · exact induction
            · exact related_pure _

section Visits

variable {visit shownVisit : Visit α}
  (children : ∀ {index : Nat} {child : Node},
    tree.childAt node index = some child →
    Seen view (visit tree child) (shownVisit tree child))
include children

theorem seen_resumeMem (goOn : Status) :
    Seen view (resumeMem visit tree node goOn)
      (resumeMem shownVisit tree node goOn) := by
  refine (seen_ensureState isVisible).bind fun state => ?_
  have scans : ∀ start, Seen view
      (scanMem (tickChild visit tree node) (recordMem tree node) goOn
        (List.range' start (node.children.length - start)))
      (scanMem (tickChild shownVisit tree node) (recordMem tree node) goOn
        (List.range' start (node.children.length - start))) :=
    fun start => seen_scanMem (related_tickChild (congruence_shows view) children)
      (fun _ => seen_updateKind isVisible _) goOn _
  cases state.kind with
  | mem index => exact (related_pure index).bind scans
  | _ => exact seen_misfit.bind fun _ => (related_pure 0).bind scans

theorem seen_scanProb (fuel : Nat) (goOn : Status) :
    Seen view (scanProb fuel visit tree node goOn)
      (scanProb fuel shownVisit tree node goOn) :=
  (seen_ensureState isVisible).bind fun _ =>
    seen_drawLoop isVisible (related_tickChild (congruence_shows view) children)
      goOn fuel

theorem seen_visitParallel (spec : ParallelSpec) (indices : List Nat) :
    Seen view (visitParallel visit tree node spec indices)
      (visitParallel shownVisit tree node spec indices) := by
  induction indices with
  | nil => exact related_pure _
  | cons index rest induction =>
      refine related_get_bind fun {pass shown} shows => ?_
      rw [shows, pass.parallelResults_through isVisible]
      split
      · exact induction
      · cases isChild : tree.childAt node index with
        | none =>
            exact (related_missingChild (congruence_shows view) node index).bind
              fun _ => related_pure _
        | some child =>
            refine (children isChild).bind fun status => ?_
            refine (seen_modifyGet fun pass =>
              pass.recordResult_through isVisible index status).bind
                fun results => ?_
            cases spec.verdict index status results with
            | none => exact induction
            | some verdict => exact related_pure _

theorem seen_parallel :
    Seen view (parallel visit tree node) (parallel shownVisit tree node) := by
  refine (seen_modifyGet fun pass =>
    pass.prepareParallel_through isVisible).bind fun spec => ?_
  refine (seen_visitParallel isVisible children spec _).bind fun verdict => ?_
  cases verdict with
  | some verdict => exact related_pure _
  | none =>
      refine related_get_bind fun {pass shown} shows => ?_
      rw [shows, pass.parallelResults_through isVisible]
      exact related_pure _

theorem seen_repeater :
    Seen view (repeater visit tree node) (repeater shownVisit tree node) := by
  refine (seen_ensureState isVisible).bind fun state => ?_
  -- whatever the state is, the rest only depends on two numbers
  cases state.kind <;> first
    | refine (related_pure _).bind ?_
    | refine seen_misfit.bind fun _ => (related_pure _).bind ?_
  all_goals
    rintro ⟨repeats, count⟩
    dsimp only
    split
    · exact (seen_updateKind isVisible _).bind fun _ => related_pure _
    · refine (related_tickChild (congruence_shows view) children 0).bind
        fun status => ?_
      split
      · exact (seen_updateKind isVisible _).bind fun _ => related_pure _
      · exact related_pure _

theorem seen_limiter :
    Seen view (limiter visit tree node) (limiter shownVisit tree node) := by
  refine (seen_ensureState isVisible).bind fun state => ?_
  cases state.kind with
  | limiter limit remaining =>
      dsimp only
      split
      · exact related_pure _
      · refine (seen_modify fun pass =>
          pass.updateState_through isVisible _).bind fun _ => ?_
        exact related_delegate (congruence_shows view) children id
  | _ => exact seen_misfit.bind fun _ => related_pure _

theorem seen_update {setting : Setting α}
    (targets : ∀ {selector : TreeSelector} {target : Tree},
      setting.forest.select selector = some target →
      Seen view (visit target target.rootNode)
        (shownVisit target target.rootNode)) (fuel : Nat) :
    Seen view (update setting fuel visit tree node)
      (update (setting.through view) fuel shownVisit tree node) := by
  by_cases plain : node.kind.stateShape = .plain
  · exact related_update_of_plain (congruence_shows view) children
      (setting.alike_through view) targets plain fuel
  rw [update, update]
  cases kind : node.kind with
  | memSequence => exact seen_resumeMem isVisible children _
  | memSelector => exact seen_resumeMem isVisible children _
  | probSequence => exact seen_scanProb isVisible children fuel _
  | probSelector => exact seen_scanProb isVisible children fuel _
  | parallel => exact seen_parallel isVisible children
  | repeater => exact seen_repeater isVisible children
  | limiter => exact seen_limiter isVisible children
  | _ =>
      rw [kind] at plain
      exact absurd rfl plain

end Visits

theorem enter_through (setting : Setting α) (pass : Pass α) :
    enter (setting.through view) tree node (pass.through view) =
      (enter setting tree node pass).through view := by
  rw [enter, enter, pass.countTick_through isVisible]
  dsimp only [seen, Prod.map, id]
  split
  · rfl
  · exact openNode_through _ isVisible _

theorem leave_through (setting : Setting α) (status : Status) (pass : Pass α) :
    leave (setting.through view) tree node status (pass.through view) =
      (leave setting tree node status pass).through view := by
  rw [leave, leave]
  split
  · exact (pass.note _).keepRunning_through isVisible
  · exact (pass.note _).closeNode_through isVisible _

end Node

/-- Through a view that shows every node that a pass can meet, a tick goes as on
the whole blackboard. -/
theorem seen_tick {setting : Setting α} {met : Tree → Node → Prop}
    (covers : view.Covers setting.forest met) (fuel : Nat) {tree : Tree}
    {node : Node} (isMet : met tree node) :
    Seen view (tick setting fuel tree node)
      (tick (setting.through view) fuel tree node) := by
  induction fuel generalizing tree node with
  | zero => exact related_outOfFuel
  | succ fuel induction =>
      refine (seen_modifyGet fun pass =>
        pass.takeStep_through setting.config (tree.refTo node)).bind
          fun covered => ?_
      split
      · have isVisible := covers.visible isMet
        have updates := seen_update isVisible
          (fun isChild => induction (covers.child isMet isChild))
          (fun selected => by
            obtain ⟨_, _, registered⟩ := Option.bind_eq_some_iff.mp selected
            exact induction (covers.root registered)) fuel
        rintro pass _ rfl
        rw [activate_apply, activate_apply, enter_through isVisible,
          updates.apply_through]
        cases update setting fuel (tick setting fuel) tree node
            (enter setting tree node pass) with
        | none => exact .none
        | some result =>
            exact .some ⟨rfl, leave_through isVisible setting result.1 result.2⟩
      · exact related_pure _

end PassM

end BehaviorTree
