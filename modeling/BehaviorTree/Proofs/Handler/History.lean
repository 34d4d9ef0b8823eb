import BehaviorTree.Proofs.Forest.History
import BehaviorTree.Proofs.Handler.Binding
import BehaviorTree.Proofs.Handler.Ticking

/-!
# Histories of a handler

A session is a handler beside the woodland that it works in.  Its history is any
sequence of edits, setups, ticks, prunings and accesses to the globals.  Events
that fail are part of it: they leave the session as it was.
-/

namespace BehaviorTree

variable {α : Type}

structure Session (α : Type) where
  woodland : Woodland := {}
  handler : Handler α

namespace Session

/-- One event of a history. -/
inductive Event (α : Type) where
  | edit (step : Woodland.Step)
  | setup (agent : α) (selector : Option TreeSelector) (override : Bool)
  | tick (fuel : Nat) (agent : α)
  | prune
  /-- The globals of the blackboard are changed from outside. -/
  | share (change : Globals → Globals)

/-- A handler without blackboard beside an empty forest. -/
def start (behaviors : Behaviors α) (config : HandlerConfig) : Session α :=
  { handler := { behaviors, config } }

def forest (session : Session α) : Forest := session.woodland.forest

/-- The session with another blackboard, if there is one. -/
def mapBoard (session : Session α) (change : Blackboard → Blackboard) :
    Session α :=
  { session with
    handler :=
      { session.handler with
        blackboard := session.handler.blackboard.map change } }

variable [Agent α]

/-- The session after an event; none if the hashes of a tree or the fuel of a
tick ran out. -/
def step (session : Session α) : Event α → Option (Session α)
  | .edit step =>
    (session.woodland.step step).map fun woodland => { session with woodland }
  | .setup agent selector override =>
    match (Handler.setup session.forest agent selector override).run
      session.handler with
    | .ok _ handler => some { session with handler }
    | .error _ handler => some { session with handler }
  | .tick fuel agent =>
    (Handler.tick fuel session.forest session.handler agent).map fun outcome =>
      { session with handler := (session.handler.afterTick agent outcome).1 }
  | .prune => some (session.mapBoard (·.pruneOrphans session.forest))
  | .share change =>
    some (session.mapBoard fun board =>
      { board with globals := change board.globals })

/-- The session to which a sequence of events leads. -/
def run (session : Session α) : List (Event α) → Option (Session α)
  | [] => some session
  | first :: rest => (session.step first).bind (run · rest)

variable {session after : Session α} {event : Event α} {events : List (Event α)}

theorem step_setup (session : Session α) (agent : α)
    (selector : Option TreeSelector) (override : Bool) :
    session.step (.setup agent selector override) = some
      (match session.handler.approve session.forest agent selector with
        | .error _ => session
        | .ok tree =>
          { session with
            handler :=
              { session.handler with
                blackboard := some (session.handler.boundBoard session.forest
                  tree agent override) } }) := by
  rw [step, Handler.setup_eq]
  cases session.handler.approve session.forest agent selector <;> rfl

/-- Only edits touch the woodland. -/
theorem woodland_step (stepped : session.step event = some after) :
    (∃ step, event = .edit step ∧
      session.woodland.step step = some after.woodland ∧
      after.handler = session.handler) ∨
    after.woodland = session.woodland := by
  cases event with
  | edit step =>
      obtain ⟨woodland, edited, rfl⟩ := Option.map_eq_some_iff.mp stepped
      exact .inl ⟨step, rfl, edited, rfl⟩
  | setup agent selector override =>
      rw [step_setup] at stepped
      cases approved : session.handler.approve session.forest agent selector with
      | error cause =>
          rw [approved] at stepped
          exact .inr (Option.some.inj stepped ▸ rfl)
      | ok tree =>
          rw [approved] at stepped
          exact .inr (Option.some.inj stepped ▸ rfl)
  | tick fuel agent =>
      obtain ⟨outcome, _, rfl⟩ := Option.map_eq_some_iff.mp stepped
      exact .inr rfl
  | prune => exact .inr (Option.some.inj stepped ▸ rfl)
  | share change => exact .inr (Option.some.inj stepped ▸ rfl)

theorem sound_step (sound : session.woodland.Sound)
    (stepped : session.step event = some after) : after.woodland.Sound := by
  rcases woodland_step stepped with ⟨step, _, edited, _⟩ | same
  · exact sound.step edited
  · rw [same]
    exact sound

theorem sound_run (sound : session.woodland.Sound)
    (ran : session.run events = some after) : after.woodland.Sound := by
  induction events generalizing session with
  | nil => exact Option.some.inj ran ▸ sound
  | cons first rest induction =>
      obtain ⟨middle, stepped, ran⟩ := Option.bind_eq_some_iff.mp ran
      exact induction (sound_step sound stepped) ran

theorem exists_located_of_run (sound : session.woodland.Sound) {id : TreeId}
    {hash : NodeHash} {check : Session α → Tree → Node → Bool}
    (checked : ((session.run events).any fun after =>
      (after.forest.get? id).any fun home =>
      home.nodes[hash]?.any (check after home)) = true) :
    ∃ after home node, session.run events = some after ∧
      after.woodland.Sound ∧ after.forest.Located home node ∧
      check after home node = true := by
  obtain ⟨after, ran, checked⟩ := (Option.any_eq_true _ _).mp checked
  obtain ⟨home, registered, checked⟩ := (Option.any_eq_true _ _).mp checked
  obtain ⟨node, inTree, checked⟩ := (Option.any_eq_true _ _).mp checked
  have sound := sound_run sound ran
  exact ⟨after, home, node, ran, sound,
    sound.wellFormed.located_of_registered registered inTree, checked⟩

end Session

end BehaviorTree
