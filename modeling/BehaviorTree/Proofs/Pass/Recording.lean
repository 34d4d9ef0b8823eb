import Mathlib.Data.List.Chain
import BehaviorTree.Proofs.Forest.Leading
import BehaviorTree.Proofs.Pass.Keeping

/-!
# Recorded lifecycles

With lifecycle tracing a node announces that it is opened and that it is closed.
As long as no way leads from a node back to its own hash, no tick within an
update of the node opens or closes it again.  So the openings and closings that
a log has of a hash take turns, and the running flag tells whose turn it was.
-/

namespace BehaviorTree

/-- The tag of an event with which an activation of the hash begins or ends. -/
def TraceEvent.turn (hash : NodeHash) (event : TraceEvent) : Option String :=
  if event.node = some hash ∧ event.tag ∈ ["bt.open", "bt.close"] then
    some event.tag
  else none

namespace TraceLog

/-- The tags with which activations of the hash began and ended, in order. -/
def turns (log : TraceLog) (hash : NodeHash) : List String :=
  log.events.toList.filterMap (·.turn hash)

theorem turns_push (log : TraceLog) (event : TraceEvent) (hash : NodeHash) :
    (log.push event).turns hash = log.turns hash ++ (event.turn hash).toList := by
  rw [turns, turns, push, Array.toList_push, List.filterMap_append]
  cases isTurn : event.turn hash with
  | none => simp [isTurn]
  | some tag => simp [isTurn]

end TraceLog

/-- Every abandoned node is closed by the next event. -/
def ClosesAbandoned (events : List TraceEvent) : Prop :=
  ∀ (earlier later : List TraceEvent) (event : TraceEvent),
    events = earlier ++ event :: later → event.tag = "bt.abandon" →
    ∃ next ∈ later.head?, next.tag = "bt.close" ∧ next.node = event.node

namespace ClosesAbandoned

variable {events : List TraceEvent}

theorem append (closes : ClosesAbandoned events) {more : List TraceEvent}
    (closesMore : ClosesAbandoned more) : ClosesAbandoned (events ++ more) := by
  intro earlier later event split abandons
  rcases List.append_eq_append_iff.mp split with
    ⟨middle, _, isMore⟩ | ⟨middle, isEvents, isLater⟩
  · exact closesMore _ _ _ isMore abandons
  cases middle with
  | nil => exact closesMore [] _ _ isLater.symm abandons
  | cons found rest =>
      obtain ⟨rfl, rfl⟩ := List.cons.inj isLater
      obtain ⟨next, isNext, closed⟩ := closes _ _ _ isEvents abandons
      refine ⟨next, ?_, closed⟩
      change (rest ++ more).head? = some next
      rw [List.head?_append, Option.mem_def.mp isNext]
      rfl

theorem other {event : TraceEvent} (different : event.tag ≠ "bt.abandon") :
    ClosesAbandoned [event] := by
  intro earlier later found split abandons
  obtain ⟨rfl, same, rfl⟩ : earlier = [] ∧ event = found ∧ later = [] := by
    cases earlier with
    | nil => simpa using split
    | cons _ rest => simp at split
  exact absurd (same ▸ abandons) different

theorem pair {event next : TraceEvent} (isClose : next.tag = "bt.close")
    (same : next.node = event.node) : ClosesAbandoned [event, next] := by
  intro earlier later found split abandons
  cases earlier with
  | nil =>
      obtain ⟨rfl, rfl⟩ := List.cons.inj split
      exact ⟨next, rfl, isClose, same⟩
  | cons _ rest =>
      have closes : ClosesAbandoned [next] := other (by rw [isClose]; decide)
      exact closes rest later found (List.cons.inj split).2 abandons

end ClosesAbandoned

/-- Openings and closings take turns, and the first is an opening. -/
structure Alternates (tags : List String) : Prop where
  first : ∀ tag ∈ tags.head?, tag = "bt.open"
  turns : tags.IsChain (· ≠ ·)

namespace Alternates

theorem nil : Alternates [] where
  first := nofun
  turns := .nil

variable {tags : List String} (alternates : Alternates tags)
include alternates

theorem opens (closed : tags.getLast? ≠ some "bt.open") :
    Alternates (tags ++ ["bt.open"]) where
  first := by
    cases tags with
    | nil => simp
    | cons tag rest => exact alternates.first
  turns := by
    refine List.isChain_append.mpr
      ⟨alternates.turns, List.isChain_singleton _, ?_⟩
    rintro last isLast _ ⟨⟩ rfl
    exact closed isLast

theorem closes (opened : tags.getLast? = some "bt.open") :
    Alternates (tags ++ ["bt.close"]) where
  first := by
    cases tags with
    | nil => cases opened
    | cons tag rest => exact alternates.first
  turns := by
    refine List.isChain_append.mpr
      ⟨alternates.turns, List.isChain_singleton _, ?_⟩
    rintro last isLast _ ⟨⟩ rfl
    simp [opened] at isLast

end Alternates

/-- The log of the tracer has these turns of the hash. -/
def Tracer.Notes (tracer : Tracer) (hash : NodeHash) (tags : List String) :
    Prop :=
  ∃ log, tracer.log = some log ∧ log.turns hash = tags

/-- The tracer keeps a log in which every abandoned node is closed at once. -/
def Tracer.Heeds (tracer : Tracer) : Prop :=
  ∃ log, tracer.log = some log ∧ ClosesAbandoned log.events.toList

section Emitting

variable {tracer : Tracer} {hash : NodeHash} {tags : List String}

theorem Tracer.Notes.emit (notes : tracer.Notes hash tags) (event : TraceEvent) :
    (tracer.emit event).Notes hash (tags ++ (event.turn hash).toList) := by
  obtain ⟨log, isLog, rfl⟩ := notes
  refine ⟨log.push event, ?_, log.turns_push event hash⟩
  rw [Tracer.emit, isLog]
  rfl

theorem Tracer.Heeds.emit (heeds : tracer.Heeds) {event : TraceEvent}
    (other : event.tag ≠ "bt.abandon") : (tracer.emit event).Heeds := by
  obtain ⟨log, isLog, closes⟩ := heeds
  refine ⟨log.push event, by rw [Tracer.emit, isLog]; rfl, ?_⟩
  rw [TraceLog.push, Array.toList_push]
  exact closes.append (.other other)

theorem Tracer.Heeds.emit_emit (heeds : tracer.Heeds) {event next : TraceEvent}
    (isClose : next.tag = "bt.close") (same : next.node = event.node) :
    ((tracer.emit event).emit next).Heeds := by
  obtain ⟨log, isLog, closes⟩ := heeds
  refine ⟨(log.push event).push next, ?_, ?_⟩
  · rw [Tracer.emit, Tracer.emit, isLog]
    rfl
  · simp only [TraceLog.push, Array.toList_push, List.append_assoc]
    exact closes.append (.pair isClose same)

end Emitting

namespace Pass

variable {α : Type} {setting : Setting α} {tree : Tree} {node : Node}
  {before after : Pass α} {status : Status}

/-- An event of the given kind about a node, at this moment. -/
def eventOf (pass : Pass α) (tag : String) (node : Node) : TraceEvent :=
  { tick := pass.board.tick, tag, node := some node.hash, detail := node.name }

theorem notes_eventOf {tracer : Tracer} {hash : NodeHash} {tags : List String}
    (notes : tracer.Notes hash tags) (pass : Pass α) (tag : String)
    (node : Node) :
    (tracer.emit (pass.eventOf tag node)).Notes hash
      (if node.hash = hash ∧ tag ∈ ["bt.open", "bt.close"] then tags ++ [tag]
      else tags) := by
  have emitted := notes.emit (pass.eventOf tag node)
  simp only [TraceEvent.turn, eventOf, Option.some.injEq] at emitted
  split
  · next isTurn =>
      rw [if_pos isTurn] at emitted
      exact emitted
  · next noTurn =>
      rw [if_neg noTurn, Option.toList_none, List.append_nil] at emitted
      exact emitted

/-- A move traces nothing but echoes. -/
theorem Move.tracer (move : Move tree node before after) :
    after.board.tracer = before.board.tracer ∨ ∃ event : TraceEvent,
      event.tag = "bt.echo" ∧
      after.board.tracer = before.board.tracer.emit event := by
  have updated : ∀ change : KindState → Option KindState,
      (before.updateKind tree node change).board.tracer =
        before.board.tracer := by
    intro change
    unfold updateKind
    dsimp only
    split
    · rfl
    · rfl
  cases move with
  | echo => exact .inr ⟨_, rfl, rfl⟩
  | ensure => exact .inl rfl
  | misfit => exact .inl rfl
  | spend => exact .inl rfl
  | recordMem index recorded =>
      cases recorded
      exact .inl (updated _)
  | recordProb _ _ recorded =>
      cases recorded
      exact .inl (updated _)
  | setRepeatCount change changed =>
      cases changed
      exact .inl (updated _)
  | draw =>
      left
      unfold nextProbChild
      split
      · split
        · rfl
        · split
          · rfl
          · rfl
        · rfl
      · rfl
  | prepare =>
      left
      unfold prepareParallel
      dsimp only
      split
      · rfl
      · rfl
  | record =>
      left
      unfold recordResult
      split
      · split
        · rfl
        · rfl
      · rfl

theorem Move.notes (move : Move tree node before after) {hash : NodeHash}
    {tags : List String} (notes : before.board.tracer.Notes hash tags) :
    after.board.tracer.Notes hash tags := by
  rcases move.tracer with same | ⟨event, isEcho, same⟩
  · rw [same]
    exact notes
  · have emitted := notes.emit event
    have noTurn : event.turn hash = none :=
      if_neg fun isTurn => by simp [isEcho] at isTurn
    rw [noTurn, Option.toList_none, List.append_nil] at emitted
    rw [same]
    exact emitted

theorem Move.heeds (move : Move tree node before after)
    (heeds : before.board.tracer.Heeds) : after.board.tracer.Heeds := by
  rcases move.tracer with same | ⟨event, isEcho, same⟩
  · rw [same]
    exact heeds
  · rw [same]
    exact heeds.emit (by rw [isEcho]; decide)

section Traced

variable (traced : setting.config.traceLifecycle = true)
include traced

theorem tracer_emitLifecycle (pass : Pass α) (tag : String) (node : Node) :
    (pass.emitLifecycle setting.config tag node).board.tracer =
      pass.board.tracer.emit (pass.eventOf tag node) := by
  rw [emitLifecycle, if_pos traced]
  rfl

theorem tracer_enter (tree : Tree) (node : Node) (pass : Pass α) :
    (PassM.enter setting tree node pass).board.tracer =
      if (pass.board.stateFor tree node).running then pass.board.tracer
      else pass.board.tracer.emit (pass.eventOf "bt.open" node) := by
  unfold PassM.enter
  change (if (pass.board.stateFor tree node).running then
      (pass.countTick tree node).2
    else (pass.countTick tree node).2.openNode setting.config tree
      node).board.tracer = _
  split
  · rfl
  · exact tracer_emitLifecycle traced _ _ _

theorem tracer_closeNode (tree : Tree) (node : Node) (pass : Pass α) :
    (pass.closeNode setting.config tree node).board.tracer =
      pass.board.tracer.emit (pass.eventOf "bt.close" node) :=
  tracer_emitLifecycle traced _ _ _

theorem tracer_leave (tree : Tree) (node : Node) (status : Status)
    (pass : Pass α) :
    (PassM.leave setting tree node status pass).board.tracer =
      if status = .running then pass.board.tracer
      else pass.board.tracer.emit (pass.eventOf "bt.close" node) := by
  unfold PassM.leave
  dsimp only
  split
  · unfold keepRunning Blackboard.noteRunning
    dsimp only
    split
    · rfl
    · rfl
  · exact tracer_closeNode traced _ _ _

theorem tracer_abandonNode (tree : Tree) (node : Node) (pass : Pass α) :
    (pass.abandonNode setting.config tree node).board.tracer =
      (pass.board.tracer.emit (pass.eventOf "bt.abandon" node)).emit
        (pass.eventOf "bt.close" node) := by
  unfold abandonNode
  rw [tracer_closeNode traced, tracer_emitLifecycle traced]
  unfold emitLifecycle
  split
  · rfl
  · rfl

variable {hash : NodeHash} {tags : List String}

theorem notes_enter (before : Pass α) (tree : Tree) (node : Node)
    (notes : before.board.tracer.Notes hash tags) :
    (PassM.enter setting tree node before).board.tracer.Notes hash
      (if (before.board.stateFor tree node).running ∨ node.hash ≠ hash then tags
      else tags ++ ["bt.open"]) := by
  rw [tracer_enter traced]
  have opened := notes_eventOf notes before "bt.open" node
  cases running : (before.board.stateFor tree node).running with
  | true => simpa using notes
  | false =>
      by_cases same : node.hash = hash
      · simpa [same] using opened
      · simpa [same] using opened

theorem notes_leave (tree : Tree) (node : Node) (status : Status)
    (notes : before.board.tracer.Notes hash tags) :
    (PassM.leave setting tree node status before).board.tracer.Notes hash
      (if status = .running ∨ node.hash ≠ hash then tags
      else tags ++ ["bt.close"]) := by
  rw [tracer_leave traced]
  have closed := notes_eventOf notes before "bt.close" node
  by_cases running : status = .running
  · simpa [running] using notes
  · by_cases same : node.hash = hash
    · simpa [running, same] using closed
    · simpa [running, same] using closed

theorem notes_abandonNode (tree : Tree) (node : Node)
    (notes : before.board.tracer.Notes hash tags) :
    (before.abandonNode setting.config tree node).board.tracer.Notes hash
      (if node.hash = hash then tags ++ ["bt.close"] else tags) := by
  rw [tracer_abandonNode traced]
  have abandoned := notes_eventOf notes before "bt.abandon" node
  rw [if_neg (by simp)] at abandoned
  simpa using notes_eventOf abandoned before "bt.close" node

end Traced

end Pass

open BehaviorTree.Pass

variable {α : Type} {setting : Setting α} {tree : Tree} {node : Node}
  {before after : Pass α} {status : Status}

section Traced

variable (traced : setting.config.traceLifecycle = true)
  (wellFormed : setting.forest.WellFormed)
include traced wellFormed

/-- A tick abandons no node. -/
theorem PassM.heeds_of_tick {fuel : Nat}
    (located : setting.forest.Located tree node)
    (ended : tick setting fuel tree node before = some (status, after))
    (heeds : before.board.tracer.Heeds) : after.board.tracer.Heeds := by
  refine keeps_of_tick wellFormed (fun board => board.tracer.Heeds)
    (fun _ => True) (fun _ _ => trivial) (fun _ => ⟨fun _ => id, Move.heeds⟩)
    ?_ ?_ located trivial ended heeds
  · intro tree node pass _ heeds
    rw [tracer_enter traced]
    split
    · exact heeds
    · exact heeds.emit (by simp [eventOf])
  · intro tree node status pass _ heeds
    rw [tracer_leave traced]
    split
    · exact heeds
    · exact heeds.emit (by simp [eventOf])

/-- A tick does not open or close nodes to which its node does not lead. -/
theorem PassM.notes_of_tick {hash : NodeHash} {tags : List String} {fuel : Nat}
    (located : setting.forest.Located tree node) (different : node.hash ≠ hash)
    (apart : ∀ other, setting.forest.Leads (tree.refTo node) other →
      other.hash ≠ hash)
    (ended : tick setting fuel tree node before = some (status, after))
    (notes : before.board.tracer.Notes hash tags) :
    after.board.tracer.Notes hash tags := by
  refine keeps_of_tick wellFormed (fun board => board.tracer.Notes hash tags)
    (fun ref => ref.hash ≠ hash ∧
      ∀ other, setting.forest.Leads ref other → other.hash ≠ hash)
    ?_ (fun _ => ⟨fun _ => id, fun move => move.notes⟩) ?_ ?_ located
    ⟨different, apart⟩ ended notes
  · rintro ref next ⟨_, apart⟩ follows
    exact ⟨apart next (.single follows),
      fun other leads => apart other (.head follows leads)⟩
  · rintro tree node pass ⟨differs, _⟩ notes
    have entered := notes_enter traced _ tree node notes
    rwa [if_pos (.inr differs)] at entered
  · rintro tree node status pass ⟨differs, _⟩ notes
    have left := notes_leave traced tree node status notes
    rwa [if_pos (.inr differs)] at left

end Traced

/-- Between updates of the nodes of a hash: the log has turns of the hash, whose
last one tells whether it is flagged as running, and if so its state fits. -/
structure Blackboard.Tells (forest : Forest) (board : Blackboard)
    (hash : NodeHash) : Prop where
  turns : ∃ tags, board.tracer.Notes hash tags ∧ Alternates tags ∧
    (board.isRunning hash = true ↔ tags.getLast? = some "bt.open")
  fits : ∀ {tree : Tree} {node : Node} {state : NodeState},
    forest.Located tree node → node.hash = hash →
    board.states[hash]? = some state → state.running = true →
    state.kind.fits node.kind = true

namespace Blackboard.Tells

variable {forest : Forest} {hash : NodeHash}

theorem congr {first second : Blackboard} (tells : first.Tells forest hash)
    (states : second.states[hash]? = first.states[hash]?)
    (notes : ∀ {tags}, first.tracer.Notes hash tags →
      second.tracer.Notes hash tags) : second.Tells forest hash where
  turns := by
    obtain ⟨tags, noted, alternates, flag⟩ := tells.turns
    refine ⟨tags, notes noted, alternates, ?_⟩
    rw [isRunning_congr states]
    exact flag
  fits located same present := by
    rw [states] at present
    exact tells.fits located same present

theorem running_stateFor {board : Blackboard}
    (tells : board.Tells forest node.hash) (located : forest.Located tree node) :
    (board.stateFor tree node).running = board.isRunning node.hash := by
  unfold stateFor isRunning
  cases present : board.states[node.hash]? with
  | none => rfl
  | some state =>
      dsimp only
      split
      · rfl
      · next misfits =>
          cases running : state.running with
          | false => rfl
          | true =>
              exact absurd (tells.fits located rfl present running) misfits

theorem enter (traced : setting.config.traceLifecycle = true)
    (located : setting.forest.Located tree node) (before : Pass α)
    (tells : before.board.Tells setting.forest node.hash) :
    ∃ tags,
      (PassM.enter setting tree node before).board.tracer.Notes node.hash tags ∧
      Alternates tags ∧ tags.getLast? = some "bt.open" := by
  obtain ⟨tags, notes, alternates, flag⟩ := tells.turns
  have entered := notes_enter traced _ tree node notes
  rw [← tells.running_stateFor located] at flag
  by_cases running : (before.board.stateFor tree node).running = true
  · rw [if_pos (.inl running)] at entered
    exact ⟨tags, entered, alternates, flag.mp running⟩
  · rw [if_neg (by simpa using running)] at entered
    exact ⟨_, entered, alternates.opens fun opened => running (flag.mpr opened),
      by simp⟩

/-- The end of an update closes the node unless it stays running. -/
theorem leave (traced : setting.config.traceLifecycle = true)
    (isScoped : setting.forest.Scoped)
    (located : setting.forest.Located tree node) {tags : List String}
    (notes : before.board.tracer.Notes node.hash tags)
    (alternates : Alternates tags) (opened : tags.getLast? = some "bt.open") :
    (PassM.leave setting tree node status before).board.Tells setting.forest
      node.hash := by
  have left := notes_leave traced tree node status notes
  obtain ⟨state, present, running, kind⟩ :=
    (PassM.leaves_leave setting tree node status before).here
  refine ⟨?_, fun {other found _} foundLocated same isState isFlagged => ?_⟩
  · rw [isRunning_eq present, running]
    by_cases isRunning : status = .running
    · rw [if_pos (.inl isRunning)] at left
      exact ⟨tags, left, alternates, iff_of_true isRunning opened⟩
    · rw [if_neg (by simpa using isRunning)] at left
      exact ⟨_, left, alternates.closes opened,
        iff_of_false isRunning (by simp)⟩
  · rw [present] at isState
    cases isState
    obtain ⟨_, rfl⟩ := isScoped.unique located foundLocated same
    rw [kind, if_pos (running.mp isFlagged)]
    exact fits_stateFor _ _ _

/-- An abandoned node is closed. -/
theorem abandonNode (traced : setting.config.traceLifecycle = true)
    (flagged : before.board.isRunning node.hash = true)
    (tells : before.board.Tells setting.forest hash) :
    (before.abandonNode setting.config tree node).board.Tells setting.forest
      hash := by
  have writes := before.writes_abandonNode setting.config tree node
  by_cases same : node.hash = hash
  · subst same
    obtain ⟨tags, notes, alternates, flag⟩ := tells.turns
    have closed := notes_abandonNode traced tree node notes
    rw [if_pos rfl] at closed
    refine ⟨⟨_, closed, alternates.closes (flag.mp flagged), ?_⟩, ?_⟩
    · rw [writes.isRunning]
      simp
    · intro _ _ state _ _ present running
      rw [writes.here] at present
      cases present
      cases running
  · refine tells.congr (writes.elsewhere (Ne.symm same)) fun notes => ?_
    have closed := notes_abandonNode traced tree node notes
    rwa [if_neg same] at closed

end Blackboard.Tells

section Ticks

variable (traced : setting.config.traceLifecycle = true)
  (wellFormed : setting.forest.WellFormed) (isScoped : setting.forest.Scoped)
  (acyclic : setting.forest.Acyclic)
include traced wellFormed isScoped acyclic

/-- After a tick the log tells again of every hash whether it is running. -/
theorem PassM.tells_of_tick {hash : NodeHash} {fuel : Nat}
    (located : setting.forest.Located tree node)
    (ended : tick setting fuel tree node before = some (status, after))
    (tells : before.board.Tells setting.forest hash) :
    after.board.Tells setting.forest hash := by
  induction fuel generalizing tree node before status after with
  | zero => cases ended
  | succ fuel induction =>
      rcases board_of_tick ended with ⟨globals, same⟩ | ⟨body, updated, rfl⟩
      · rw [same]
        exact tells.congr rfl id
      have entering := enters_enter setting tree node before
      have leaving := leaves_leave setting tree node status body
      by_cases same : node.hash = hash
      · subst same
        -- nothing below the node meets its hash, so it stays open
        have apart : ∀ other, setting.forest.Leads (tree.refTo node) other →
            other.hash ≠ node.hash :=
          fun other => acyclic.apart wellFormed isScoped located
        obtain ⟨tags, notes, alternates, opened⟩ :=
          Blackboard.Tells.enter traced located
            (before.accept (tree.refTo node)) tells
        have steady : Blackboard.Steady
            (fun board => board.tracer.Notes node.hash tags) α tree node :=
          ⟨fun _ => id, fun move => move.notes⟩
        refine .leave traced isScoped located (steady.update wellFormed located
          ?_ updated notes) alternates opened
        intro next child _ _ _ found follows ticked
        refine notes_of_tick traced wellFormed found ?_ ?_ ticked
        · exact apart _ (.single follows)
        · exact fun other leads => apart other (.head follows leads)
      · have different : hash ≠ node.hash := Ne.symm same
        have steady : Blackboard.Steady
            (fun board => board.Tells setting.forest hash) α tree node :=
          ⟨fun _ tells => tells.congr rfl id, fun move tells =>
            tells.congr (move.aside.elsewhere different) move.notes⟩
        have told : body.board.Tells setting.forest hash := by
          refine steady.update wellFormed located
            (fun found _ ticked => induction found ticked) updated ?_
          refine tells.congr (entering.elsewhere different) fun notes => ?_
          have entered := notes_enter traced (before.accept (tree.refTo node))
            tree node notes
          rwa [if_pos (.inr same)] at entered
        refine told.congr (leaving.elsewhere different) fun notes => ?_
        have left := notes_leave traced tree node status notes
        rwa [if_pos (.inr same)] at left

end Ticks

end BehaviorTree
