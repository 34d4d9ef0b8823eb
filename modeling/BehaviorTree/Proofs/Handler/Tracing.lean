import BehaviorTree.Proofs.Handler.Run
import BehaviorTree.Proofs.Handler.Viewing

/-!
# Tracing

Events are written while a pass goes on, to the blackboard that it reads.  Still
nothing depends on them: two handlers that differ in what they trace, and in
where the events go, answer every call alike and change alike.
-/

namespace BehaviorTree

/-- A view of everything but the tracer. -/
def View.silent : View := { visible := fun _ => true, traced := false }

/-- A blackboard with the tracer left out. -/
def Blackboard.untraced (board : Blackboard) : Blackboard :=
  { board with tracer := {} }

theorem Blackboard.through_silent (board : Blackboard) :
    board.through .silent = board.untraced := by
  have states : board.states.filter (fun _ _ => true) = board.states :=
    Std.ExtTreeMap.filter_eq_self_iff.mpr fun _ _ => rfl
  simp [through, untraced, View.silent, states]

namespace Handler

variable {α : Type}

/-- A handler with everything about tracing left out. -/
def untraced (handler : Handler α) : Handler α :=
  { handler with
    config := handler.config.quiet
    blackboard := handler.blackboard.map (·.untraced) }

theorem through_silent (handler : Handler α) :
    handler.through .silent = handler.untraced := by
  simp [through, untraced, HandlerConfig.through, View.silent,
    ← Blackboard.through_silent]

theorem bindBlackboard_untraced (handler : Handler α) (tree : TreeId)
    (agent : UInt64) (override : Bool) :
    handler.untraced.bindBlackboard tree agent override =
      (handler.bindBlackboard tree agent override).untraced := by
  obtain ⟨behaviors, config, blackboard⟩ := handler
  cases blackboard with
  | none => rfl
  | some board =>
      simp only [bindBlackboard, untraced, Option.map_some]
      rw [apply_ite Blackboard.untraced]
      rfl

theorem seedStates_untraced (forest : Forest) (override : Bool)
    (walk : List NodeRef) (board : Blackboard) :
    seedStates forest override walk board.untraced =
      (seedStates forest override walk board).untraced := by
  have seeds : ∀ (board : Blackboard) (tree : Tree) (node : Node),
      board.untraced.seedState tree node override =
        (board.seedState tree node override).untraced := by
    intro board tree node
    cases override <;> rfl
  induction walk generalizing board with
  | nil => rfl
  | cons ref rest induction =>
      rw [seedStates, seedStates, List.foldl_cons, List.foldl_cons]
      cases forest.get? ref.tree with
      | none => exact induction board
      | some tree =>
          dsimp only
          cases tree.nodes[ref.hash]? with
          | none => exact induction board
          | some node =>
              dsimp only
              rw [seeds]
              exact induction _

variable [Agent α]

theorem approve_untraced (handler : Handler α) (forest : Forest) (agent : α)
    (selector : Option TreeSelector) :
    handler.untraced.approve forest agent selector =
      handler.approve forest agent selector := by
  have bound : handler.untraced.tree = handler.tree := by
    obtain ⟨_, _, blackboard⟩ := handler
    cases blackboard <;> rfl
  rw [approve, approve, chooseTree, chooseTree, bound]

theorem boundBoard_untraced (handler : Handler α) (forest : Forest) (tree : Tree)
    (agent : α) (override : Bool) :
    handler.untraced.boundBoard forest tree agent override =
      (handler.boundBoard forest tree agent override).untraced := by
  rw [boundBoard, bindBlackboard_untraced, seedStates_untraced]
  rfl

/-- A call of a handler, and the forest at that time. -/
inductive Request where
  | setup (forest : Forest) (selector : Option TreeSelector) (override : Bool)
  | tick (forest : Forest) (fuel : Nat)
  | prune (forest : Forest)
  | teardown

/-- What a call answers. -/
inductive Reply where
  | bound (outcome : Except ResolutionError TreeId)
  | ticked (outcome : Except TickError Status)
  | pruned (orphans : Option Nat)
  | released (board : Option Blackboard)

/-- A reply with everything about tracing left out. -/
def Reply.untraced : Reply → Reply
  | released board => .released (board.map (·.untraced))
  | reply => reply

/-- The answer to a call, and the handler and the agent after it; none if the
fuel of a tick ran out. -/
def serve (request : Request) (pair : Handler α × α) :
    Option (Reply × (Handler α × α)) :=
  match request with
  | .setup forest selector override =>
    match (setup forest pair.2 selector override).run pair.1 with
    | .ok id handler => some (.bound (.ok id), (handler, pair.2))
    | .error cause handler => some (.bound (.error cause), (handler, pair.2))
  | .tick forest fuel =>
    (step fuel forest pair).map fun result => (.ticked result.1, result.2)
  | .prune forest =>
    some (.pruned (pair.1.blackboard.map (·.orphanCount forest)),
      ({ pair.1 with
          blackboard := pair.1.blackboard.map (·.pruneOrphans forest) }, pair.2))
  | .teardown => some (.released pair.1.teardown.1, (pair.1.teardown.2, pair.2))

/-- The handler with another trace channel: a sink is installed or taken away,
or the log is. -/
def retrace (handler : Handler α) (change : Tracer → Tracer) : Handler α :=
  { handler with
    blackboard := handler.blackboard.map fun board =>
      { board with tracer := change board.tracer } }

/-- Calls one after the other, before each of which the trace channel may be
changed. -/
def serveEach :
    List ((Tracer → Tracer) × Request) → Handler α × α →
      Option (List Reply × (Handler α × α))
  | [], pair => some ([], pair)
  | (change, request) :: rest, (handler, agent) => do
    let (reply, pair) ← serve request (handler.retrace change, agent)
    let (replies, pair) ← serveEach rest pair
    return (reply :: replies, pair)

omit [Agent α] in
theorem untraced_retrace (handler : Handler α) (change : Tracer → Tracer) :
    (handler.retrace change).untraced = handler.untraced := by
  obtain ⟨_, _, blackboard⟩ := handler
  cases blackboard <;> rfl

omit [Agent α] in
theorem retrace_id (handler : Handler α) : handler.retrace id = handler := by
  obtain ⟨_, _, blackboard⟩ := handler
  cases blackboard <;> rfl

/-- A call on a handler that does not trace is the call on any other one, with
everything about tracing left out afterwards. -/
theorem serve_untraced (request : Request) (handler : Handler α) (agent : α) :
    serve request (handler.untraced, agent) =
      (serve request (handler, agent)).map fun outcome =>
        (outcome.1.untraced, (outcome.2.1.untraced, outcome.2.2)) := by
  cases request with
  | setup forest selector override =>
      dsimp only [serve]
      rw [setup_eq, setup_eq, approve_untraced]
      cases handler.approve forest agent selector with
      | error cause => rfl
      | ok tree =>
          dsimp only
          rw [boundBoard_untraced]
          rfl
  | tick forest fuel =>
      have covers : View.silent.Covers forest fun _ _ => True :=
        View.covers_of_all (fun _ => rfl) forest
      have stepped := step_through covers fuel handler agent
      rw [through_silent] at stepped
      rw [serve, serve, stepped, Option.map_map, Option.map_map]
      apply Option.map_congr
      rintro ⟨result, next, current⟩ _
      simp only [Function.comp_apply, seenAfter, through_silent]
      rfl
  | prune forest =>
      obtain ⟨_, _, blackboard⟩ := handler
      cases blackboard <;> rfl
  | teardown => rfl

/-- Replies, handler and agent with everything about tracing left out. -/
def silenced (outcome : List Reply × (Handler α × α)) :
    List Reply × (Handler α × α) :=
  (outcome.1.map Reply.untraced, (outcome.2.1.untraced, outcome.2.2))

theorem silenced_serveEach (calls : List ((Tracer → Tracer) × Request))
    (handler : Handler α) (agent : α) :
    (serveEach calls (handler, agent)).map silenced =
      serveEach (calls.map fun call => (id, call.2)) (handler.untraced, agent) := by
  induction calls generalizing handler agent with
  | nil => rfl
  | cons call rest induction =>
      obtain ⟨change, request⟩ := call
      have served := serve_untraced request (handler.retrace change) agent
      rw [untraced_retrace] at served
      simp only [serveEach, List.map_cons, retrace_id, served, bind]
      cases serve request (handler.retrace change, agent) with
      | none => rfl
      | some outcome =>
          obtain ⟨reply, next, current⟩ := outcome
          dsimp only [Option.map_some, Option.bind_some]
          rw [← induction]
          cases serveEach rest (next, current) <;> rfl

/-- Two handlers that differ in tracing only give the same replies to the same
calls, whatever is done to their trace channels in between, and differ in tracing
only afterwards; their agents are the same. -/
theorem tracing_invisible {first second : Handler α}
    (alike : first.untraced = second.untraced) (agent : α)
    {firstCalls secondCalls : List ((Tracer → Tracer) × Request)}
    (sameRequests : firstCalls.map Prod.snd = secondCalls.map Prod.snd) :
    (serveEach firstCalls (first, agent)).map silenced =
      (serveEach secondCalls (second, agent)).map silenced := by
  have quietly : ∀ calls : List ((Tracer → Tracer) × Request),
      calls.map (fun call => ((id : Tracer → Tracer), call.2)) =
        (calls.map Prod.snd).map (Prod.mk id) := by
    intro calls
    rw [List.map_map]
    rfl
  rw [silenced_serveEach, silenced_serveEach, alike, quietly, quietly,
    sameRequests]

/-- Two ticks of a watch and a pruning, with a sink from the first tick on or
without one. -/
def patrol (forest : Forest) (sink : Option TraceSink) :
    List ((Tracer → Tracer) × Request) :=
  [(id, .setup forest (some (.byId ⟨1⟩)) false),
   (fun tracer => { tracer with sink }, .tick forest 20),
   (id, .tick forest 20), (id, .prune forest)]

/-- A watchman who reports every step rests as long as one who keeps silent. -/
theorem watchmen_alike :
    ∃ forest loud silent,
      serveEach (patrol forest (some (.collect #[])))
        ({ watchman with config := { traceLifecycle := true } }, 0) =
        some loud ∧
      serveEach (patrol forest none) (watchman, 0) = some silent ∧
      silenced loud = silenced silent ∧
      loud.1.length = 4 ∧
      loud.2.1.blackboard.any (·.tracer.sink.any (·.events ≠ #[])) ∧
      silent.2.1.blackboard.any (!·.tracer.isCollecting) := by
  have checked : (Grove.run [] watchSteps).any (fun grove =>
      let forest := Forest.ofTrees grove
      ((serveEach (patrol forest (some (.collect #[])))
        ({ watchman with config := { traceLifecycle := true } }, 0)).any
          fun loud => decide (loud.1.length = 4) &&
            loud.2.1.blackboard.any (·.tracer.sink.any (·.events ≠ #[]))) &&
      (serveEach (patrol forest none) (watchman, 0)).any
        fun silent => silent.2.1.blackboard.any (!·.tracer.isCollecting)) = true := by
    decide +kernel
  obtain ⟨grove, _, passed⟩ := (Option.any_eq_true _ _).mp checked
  obtain ⟨loudly, silently⟩ := Bool.and_eq_true_iff.mp passed
  obtain ⟨loud, loudServed, reports⟩ := (Option.any_eq_true _ _).mp loudly
  obtain ⟨four, reports⟩ := Bool.and_eq_true_iff.mp reports
  obtain ⟨silent, silentServed, nothing⟩ := (Option.any_eq_true _ _).mp silently
  have sameRequests :
      (patrol (Forest.ofTrees grove) (some (.collect #[]))).map Prod.snd =
        (patrol (Forest.ofTrees grove) none).map Prod.snd := rfl
  have alike : untraced { watchman with config := { traceLifecycle := true } } =
      watchman.untraced := rfl
  have same := tracing_invisible alike 0 sameRequests
  rw [loudServed, silentServed] at same
  exact ⟨Forest.ofTrees grove, loud, silent, loudServed, silentServed,
    Option.some.inj same, of_decide_eq_true four, reports, nothing⟩

end Handler

end BehaviorTree
