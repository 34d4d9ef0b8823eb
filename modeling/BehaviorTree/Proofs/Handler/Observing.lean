import BehaviorTree.Proofs.Handler.Limiting
import BehaviorTree.Proofs.Handler.Pruning
import BehaviorTree.Proofs.Handler.Recording
import BehaviorTree.Proofs.Handler.Succeeding
import BehaviorTree.Proofs.Pass.Observing

/-!
# Diaries of composites in a history

The diary of a composite is read off the journals of the ticks and is begun anew
when the handler gets a new blackboard.  What the updates of a composite maintain
holds after any history without edits, if setups maintain it, too.
-/

namespace BehaviorTree

open BehaviorTree.Pass

variable {α : Type} {home : Tree} {composite : Node} {conduct : Conduct}
  {holds : Diary → Bool → KindState → Prop} {diary : Diary}

namespace Handler

variable {handler : Handler α} {forest : Forest}

/-- The state with which a node executes, or would on a new blackboard. -/
def stateFor (handler : Handler α) (home : Tree) (composite : Node) :
    NodeState :=
  match handler.blackboard with
  | some board => board.stateFor home composite
  | none => .forNode home composite

theorem stateFor_eq {board : Blackboard}
    (isBoard : handler.blackboard = some board) :
    handler.stateFor home composite = board.stateFor home composite := by
  rw [stateFor, isBoard]

theorem fits_stateFor (handler : Handler α) (home : Tree) (composite : Node) :
    (handler.stateFor home composite).kind.fits composite.kind = true := by
  rw [stateFor]
  split
  · exact Blackboard.fits_stateFor _ home composite
  · exact Blackboard.fits_forNode home composite

/-- What holds of a composite between ticks. -/
structure Maintains (holds : Diary → Bool → KindState → Prop) (home : Tree)
    (composite : Node) (diary : Diary) (handler : Handler α) : Prop where
  quiet : diary.replies = []
  held : holds diary (handler.stateFor home composite).running
    (handler.stateFor home composite).kind

section Tick

variable (wellFormed : forest.WellFormed) (isScoped : forest.Scoped)
  (composed : forest.Located home composite)
  (obeys : Obeys (handler.setting forest) home composite conduct)
  (discipline : Discipline home composite conduct holds)
include wellFormed isScoped composed obeys discipline

theorem maintains_of_report {fuel : Nat} {agent : α} {report : TickReport α}
    (ticked : tick fuel forest handler agent = some (.ok report))
    (maintains : handler.Maintains holds home composite diary) :
    ({ handler with blackboard := some report.pass.board } :
      Handler α).Maintains holds home composite
        (diary.read composite report.pass.log) := by
  obtain ⟨board, isBoard⟩ := holds_of_tick ticked
  obtain ⟨tree, registered, ended⟩ := (tick_eq_ok_iff isBoard).mp ticked
  have begins : Pass.Maintains holds home composite diary
      ({ agent, board := board.beginTick } : Pass α) := by
    refine ⟨maintains.quiet, ?_⟩
    have held := maintains.held
    rw [stateFor_eq isBoard] at held
    exact held
  have swept : Pass.Maintains holds home composite diary
      (handler.rootPass forest board agent) :=
    Pass.abandonEach_keeps wellFormed _
      (fun located _ maintains => maintains_of_abandonNode isScoped composed
        discipline located _ maintains) _ begins
  have ends := maintains_of_tick wellFormed isScoped composed obeys discipline
    (wellFormed.located_root registered)
    (isScoped.root_notMem_children wellFormed composed registered) ended swept
  exact ⟨ends.quiet, ends.held⟩

end Tick

section Setup

variable [Agent α]

/-- The diary after a setup that passes its checks. -/
def diaryAtSetup (handler : Handler α) (tree : Tree) (agent : α)
    (override : Bool) (diary : Diary) : Diary :=
  if handler.goesOn tree.id (Agent.stableId agent) override then diary else {}

omit [Agent α] in
/-- A blackboard is bound that goes on with what holds, or a new one. -/
theorem held_of_bindBlackboard (refreshes : Refreshes home composite holds)
    (maintains : handler.Maintains holds home composite diary) (id : TreeId)
    (agent : UInt64) (override : Bool) :
    holds (if handler.goesOn id agent override then diary else {}) false
      ((handler.bindBlackboard id agent override).stateFor home
        composite).kind := by
  by_cases continues : handler.goesOn id agent override = true
  · obtain ⟨board, continued⟩ := goesOn_iff.mp continues
    have held := refreshes.stop maintains.held
      (handler.fits_stateFor home composite)
    rw [stateFor_eq continued.holds] at held
    rw [if_pos continues, bindBlackboard_of_continues continued,
      Blackboard.stateFor_clearRunning]
    exact held
  · have absent : (handler.bindBlackboard id agent override).states[
        composite.hash]? = none := by
      rw [bindBlackboard_of_not_continues
        (not_exists.mp (mt goesOn_iff.mpr continues))]
      exact Std.ExtTreeMap.getElem?_empty
    rw [if_neg continues, Blackboard.stateFor, absent]
    exact refreshes.fresh

theorem held_of_seeded {board : Blackboard} {override : Bool}
    (refreshes : Refreshes home composite holds)
    (anew : override = true → diary = {})
    (held : holds diary false (board.stateFor home composite).kind) :
    holds diary false (board.seeded home composite override).kind := by
  rw [Blackboard.seeded]
  split
  · next overrides =>
      rw [anew overrides]
      exact refreshes.fresh
  · exact refreshes.sync held (board.fits_stateFor home composite)

theorem states_boundBoard_of_unmet (wellFormed : forest.WellFormed)
    (isScoped : forest.Scoped) (composed : forest.Located home composite)
    {tree : Tree} (registered : forest.get? tree.id = some tree) {agent : α}
    {override : Bool}
    (unmet : home.refTo composite ∉ forest.walkFollowing tree.id) :
    (handler.boundBoard forest tree agent override).states[composite.hash]? =
      (handler.bindBlackboard tree.id (Agent.stableId agent)
        override).states[composite.hash]? := by
  refine states_boundBoard_elsewhere wellFormed registered ?_
  intro other found located reaches same
  obtain ⟨rfl, rfl⟩ := isScoped.unique composed located same
  exact unmet ((Forest.mem_walkFollowing wellFormed registered).mpr
    ⟨⟨_, _, located, rfl⟩, reaches⟩)

theorem maintains_of_boundBoard (wellFormed : forest.WellFormed)
    (isScoped : forest.Scoped) (composed : forest.Located home composite)
    (refreshes : Refreshes home composite holds) {tree : Tree}
    (registered : forest.get? tree.id = some tree) (agent : α) (override : Bool)
    (maintains : handler.Maintains holds home composite diary) :
    ({ handler with
        blackboard := some (handler.boundBoard forest tree agent override) } :
      Handler α).Maintains holds home composite
        (handler.diaryAtSetup tree agent override diary) := by
  have idle : ((handler.boundBoard forest tree agent override).stateFor home
      composite).running = false :=
    (handler.idle_boundBoard _ _ _ _).running_stateFor home composite
  have bound := held_of_bindBlackboard refreshes maintains tree.id
    (Agent.stableId agent) override
  refine ⟨?_, ?_⟩
  · rw [diaryAtSetup]
    split
    · exact maintains.quiet
    · rfl
  rw [stateFor_eq rfl, idle, diaryAtSetup]
  by_cases met : home.refTo composite ∈ forest.walkFollowing tree.id
  · have reaches := ((Forest.mem_walkFollowing wellFormed registered).mp met).2
    rw [Blackboard.stateFor_eq home
      (states_boundBoard wellFormed registered isScoped composed reaches)
      (Blackboard.fits_seeded _ _ _ _)]
    refine held_of_seeded refreshes (fun overrides => if_neg ?_) bound
    intro continues
    obtain ⟨_, continued⟩ := goesOn_iff.mp continues
    rw [continued.kept] at overrides
    cases overrides
  · rw [Blackboard.stateFor_congr (states_boundBoard_of_unmet wellFormed isScoped
      composed registered met)]
    exact bound

end Setup

end Handler

theorem Forest.noReturn_of_ascends {forest : Forest}
    (wellFormed : forest.WellFormed) (isScoped : forest.Scoped)
    (ascends : forest.ascends = true) {tree : Tree} {node : Node}
    (located : forest.Located tree node) :
    ¬ forest.Leads (tree.refTo node) (tree.refTo node) := fun leads =>
  (Forest.acyclic_of_ascends ascends).apart wellFormed isScoped located leads rfl

def Session.Event.isEdit : Session.Event α → Bool
  | .edit _ => true
  | _ => false

namespace Session

variable [Agent α]

/-- The diary of a composite after an event. -/
def diaryAt (session : Session α) (composite : Node) (diary : Diary) :
    Event α → Diary
  | .setup agent selector override =>
    match session.handler.approve session.forest agent selector with
    | .error _ => diary
    | .ok tree => session.handler.diaryAtSetup tree agent override diary
  | .tick fuel agent => diary.read composite (session.told (.tick fuel agent))
  | _ => diary

/-- The diary of a composite after a history. -/
def diaryAfter (session : Session α) (composite : Node) (diary : Diary) :
    List (Event α) → Diary
  | [] => diary
  | first :: rest =>
    let noted := session.diaryAt composite diary first
    (session.step first).elim noted (·.diaryAfter composite noted rest)

variable {session after : Session α} {event : Event α} {events : List (Event α)}

omit [Agent α] in
theorem maintains_mapBoard {change : Blackboard → Blackboard}
    (maintains : session.handler.Maintains holds home composite diary)
    (keeps : ∀ board, (change board).states[composite.hash]? =
      board.states[composite.hash]?) :
    (session.mapBoard change).handler.Maintains holds home composite diary := by
  have same : (session.mapBoard change).handler.stateFor home composite =
      session.handler.stateFor home composite := by
    rw [Handler.stateFor, Handler.stateFor, mapBoard]
    cases session.handler.blackboard with
    | none => rfl
    | some board => exact Blackboard.stateFor_congr (keeps board)
  refine ⟨maintains.quiet, ?_⟩
  rw [same]
  exact maintains.held

/-- No event but a setup needs to refresh what holds. -/
theorem maintains_step (sound : session.woodland.Sound)
    (composed : session.forest.Located home composite)
    (obeys : ∀ setting : Setting α, setting.forest = session.forest →
      Obeys setting home composite conduct)
    (discipline : Discipline home composite conduct holds)
    (refreshes : event.isSetup = true → Refreshes home composite holds)
    (noEdit : event.isEdit = false)
    (maintains : session.handler.Maintains holds home composite diary)
    (stepped : session.step event = some after) :
    after.handler.Maintains holds home composite
      (session.diaryAt composite diary event) := by
  have wellFormed : session.forest.WellFormed := sound.wellFormed
  have isScoped : session.forest.Scoped := sound.labelled.isScoped
  cases event with
  | edit => cases noEdit
  | setup agent selector override =>
      rw [step_setup] at stepped
      rw [diaryAt]
      cases approved : session.handler.approve session.forest agent selector with
      | error cause =>
          rw [approved] at stepped
          exact Option.some.inj stepped ▸ maintains
      | ok tree =>
          rw [approved] at stepped
          rw [← Option.some.inj stepped]
          obtain ⟨chosen, _⟩ :=
            (Handler.approve_eq_ok_iff wellFormed).mp approved
          exact Handler.maintains_of_boundBoard wellFormed isScoped composed
            (refreshes rfl) (Handler.registered_choice wellFormed chosen) agent
            override maintains
  | tick fuel agent =>
      obtain ⟨outcome, ticked, rfl⟩ := Option.map_eq_some_iff.mp stepped
      rw [diaryAt]
      cases outcome with
      | error cause =>
          have nothing : session.told (.tick fuel agent) = [] := by
            rw [told, ticked]
            rfl
          rw [nothing]
          exact maintains
      | ok report =>
          rw [told_of_report ticked]
          exact Handler.maintains_of_report wellFormed isScoped composed
            (obeys _ rfl) discipline ticked maintains
  | prune =>
      rw [← Option.some.inj stepped]
      refine maintains_mapBoard maintains fun board => ?_
      have registered : home.contains composite.hash = true := by
        rw [Tree.contains_eq_isSome, composed.inTree]
        rfl
      exact (board.prunesTo_pruneOrphans session.forest).kept composed.inForest
        registered
  | share change =>
      rw [← Option.some.inj stepped]
      exact maintains_mapBoard maintains fun _ => rfl

theorem forest_step (noEdit : event.isEdit = false)
    (stepped : session.step event = some after) :
    after.forest = session.forest := by
  rcases woodland_step stepped with ⟨step, rfl, _⟩ | same
  · cases noEdit
  · rw [forest, same]
    rfl

theorem forest_run (noEdit : ∀ event ∈ events, event.isEdit = false)
    (ran : session.run events = some after) : after.forest = session.forest := by
  induction events generalizing session with
  | nil => exact Option.some.inj ran ▸ rfl
  | cons first rest induction =>
      obtain ⟨middle, stepped, ran⟩ := Option.bind_eq_some_iff.mp ran
      rw [induction (fun event member =>
        noEdit event (List.mem_cons_of_mem _ member)) ran]
      exact forest_step (noEdit first List.mem_cons_self) stepped

/-- What the updates of a composite maintain holds after any history without
edits. -/
theorem maintains_run (sound : session.woodland.Sound)
    (composed : session.forest.Located home composite)
    (obeys : ∀ setting : Setting α, setting.forest = session.forest →
      Obeys setting home composite conduct)
    (discipline : Discipline home composite conduct holds)
    (refreshes : ∀ event ∈ events, event.isSetup = true →
      Refreshes home composite holds)
    (noEdit : ∀ event ∈ events, event.isEdit = false)
    (maintains : session.handler.Maintains holds home composite diary)
    (ran : session.run events = some after) :
    after.handler.Maintains holds home composite
      (session.diaryAfter composite diary events) := by
  induction events generalizing session diary with
  | nil => exact Option.some.inj ran ▸ maintains
  | cons first rest induction =>
      obtain ⟨middle, stepped, ran⟩ := Option.bind_eq_some_iff.mp ran
      have same := forest_step (noEdit first List.mem_cons_self) stepped
      rw [diaryAfter, stepped]
      refine induction (sound_step sound stepped) ?_ ?_ ?_ ?_
        (maintains_step sound composed obeys discipline
          (refreshes first List.mem_cons_self) (noEdit first List.mem_cons_self)
          maintains stepped) ran
      · rw [same]
        exact composed
      · rw [same]
        exact obeys
      · exact fun event member =>
          refreshes event (List.mem_cons_of_mem _ member)
      · exact fun event member => noEdit event (List.mem_cons_of_mem _ member)

end Session

/-- A single activation took two updates, and was closed when it succeeded. -/
def Diary.tookTwo (diary : Diary) : Bool :=
  match diary.stints with
  | [first, last] =>
    first.result = .running && last.earlier = some first.replies &&
      last.result = .success && diary.closed
  | _ => false

theorem Diary.exists_of_tookTwo {diary : Diary} (tookTwo : diary.tookTwo = true) :
    ∃ first last, diary.stints = [first, last] ∧ first.result = .running ∧
      last.earlier = some first.replies ∧ last.result = .success ∧
      diary.closed = true := by
  unfold Diary.tookTwo at tookTwo
  split at tookTwo
  · next first last two =>
      simp only [Bool.and_eq_true, decide_eq_true_eq, and_assoc] at tookTwo
      exact ⟨first, last, two, tookTwo⟩
  · cases tookTwo

namespace Session

/-- A watchman is given a task. -/
def beat (task : Subtree) : List (Event UInt64) :=
  [.edit (.plant { name := "beat", chosen := some ⟨1⟩ }),
   .edit (.edit ⟨1⟩ (.add (.detached task) (Tree.build ⟨1⟩ "beat" {}).root none
     false)),
   .setup 0 (some (.byId ⟨1⟩)) false]

/-- He finds the gatekeeper busy, and goes on once he is not. -/
def walk : List (Event UInt64) :=
  [.share (·.claim "busy"), .tick 20 0, .share (·.release "busy"), .tick 20 0]

end Session

end BehaviorTree
