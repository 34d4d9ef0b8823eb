import BehaviorTree.Handler
import BehaviorTree.Proofs.Pass.Abandoning
import BehaviorTree.Proofs.Pass.Failing

/-!
# Handler ticks

A tick with a report is the tick of a root in a pass from which the nodes that
were not revisited have been swept.  Sweeping leaves alone what only behaviours,
refusals and new ticks change.
-/

namespace BehaviorTree

open BehaviorTree.Pass

variable {α : Type}

namespace Pass

/-- Nodes are closed before the root is ticked, whatever the forest. -/
structure Sweeps (swept : List NodeRef) (before after : Pass α) : Prop where
  reserved : Reserved before after
  steps : after.steps = before.steps
  depth : after.depth = before.depth
  log : after.log = before.log ++ sweep swept
  elsewhere : ∀ {hash : NodeHash}, (∀ ref ∈ swept, ref.hash ≠ hash) →
    after.board.states[hash]? = before.board.states[hash]?

theorem ranActions_sweep (swept : List NodeRef) :
    ranActions (sweep swept) = [] := by
  apply ranActions_of_idle
  intro action member
  obtain ⟨ref, _, isSwept⟩ := List.mem_flatMap.mp member
  simp at isSwept

theorem sweeps_abandonNode (pass : Pass α) (config : HandlerConfig)
    (tree : Tree) (node : Node) :
    Sweeps [tree.refTo node] pass (pass.abandonNode config tree node) :=
  have writes := writes_abandonNode pass config tree node
  { reserved := .abandonNode tree node pass config
    steps := writes.steps
    depth := writes.depth
    log := writes.log
    elsewhere := fun apart =>
      writes.elsewhere (Ne.symm (apart _ (List.mem_singleton_self _))) }

theorem sweeps_abandonEach (setting : Setting α) (refs : List NodeRef)
    (pass : Pass α) :
    ∃ swept, Sweeps swept pass (pass.abandonEach setting refs) := by
  induction refs generalizing pass with
  | nil => exact ⟨[], .refl, rfl, rfl, (List.append_nil _).symm, fun _ => rfl⟩
  | cons ref rest induction =>
      have kept : ∃ swept, Sweeps swept pass (pass.abandonEach setting rest) :=
        induction pass
      rw [abandonEach]
      cases setting.forest.get? ref.tree with
      | none => exact kept
      | some tree =>
          dsimp only
          cases tree.nodes[ref.hash]? with
          | none => exact kept
          | some node =>
              dsimp only
              split
              · have first := sweeps_abandonNode pass setting.config tree node
                obtain ⟨swept, later⟩ :=
                  induction (pass.abandonNode setting.config tree node)
                refine ⟨tree.refTo node :: swept,
                  first.reserved.trans later.reserved,
                  later.steps.trans first.steps,
                  later.depth.trans first.depth, ?_, fun apart => ?_⟩
                · rw [later.log, first.log, List.append_assoc]
                  rfl
                · rw [later.elsewhere fun other member =>
                      apart other (List.mem_cons_of_mem _ member),
                    first.elsewhere]
                  intro other member
                  rw [List.mem_singleton.mp member]
                  exact apart _ List.mem_cons_self
              · exact kept

end Pass

namespace Handler

/-- What the passes of a handler do not change. -/
def setting (handler : Handler α) (forest : Forest) : Setting α :=
  { forest, behaviors := handler.behaviors, config := handler.config }

/-- The pass in which a handler ticks the root of its tree. -/
def rootPass (handler : Handler α) (forest : Forest) (board : Blackboard)
    (agent : α) : Pass α :=
  ({ agent, board := board.beginTick } : Pass α).abandonEach
    (handler.setting forest) board.notRevisited

variable {fuel : Nat} {forest : Forest} {handler : Handler α}
  {board : Blackboard} {agent : α}

theorem runPass_eq (handler : Handler α) (fuel : Nat) (forest : Forest)
    (tree : Tree) (board : Blackboard) (agent : α) :
    runPass (handler.setting forest) fuel tree board agent =
      (PassM.tick (handler.setting forest) fuel tree tree.rootNode
        (handler.rootPass forest board agent)).map
        fun result => { status := result.1, pass := result.2 } := by
  unfold runPass rootPass
  dsimp only
  split
  · next stopped => rw [stopped, Option.map_none]
  · next ended => rw [ended, Option.map_some]

theorem tick_of_registered {tree : Tree}
    (holds : handler.blackboard = some board)
    (registered : forest.get? board.tree = some tree) :
    tick fuel forest handler agent =
      (PassM.tick (handler.setting forest) fuel tree tree.rootNode
        (handler.rootPass forest board agent)).map
        fun result => .ok { status := result.1, pass := result.2 } := by
  rw [tick, holds]
  dsimp only
  rw [registered]
  change (runPass (handler.setting forest) fuel tree board agent).map Except.ok = _
  rw [runPass_eq, Option.map_map]
  rfl

/-- A tick has a report exactly if the tick of the root comes to a result. -/
theorem tick_eq_ok_iff {report : TickReport α}
    (holds : handler.blackboard = some board) :
    tick fuel forest handler agent = some (.ok report) ↔
      ∃ tree, forest.get? board.tree = some tree ∧
        PassM.tick (handler.setting forest) fuel tree tree.rootNode
          (handler.rootPass forest board agent) =
          some (report.status, report.pass) := by
  cases registered : forest.get? board.tree with
  | none =>
      rw [tick, holds]
      dsimp only
      rw [registered]
      simp
  | some tree =>
      rw [tick_of_registered holds registered]
      constructor
      · intro ticked
        obtain ⟨result, ran, same⟩ := Option.map_eq_some_iff.mp ticked
        cases same
        exact ⟨tree, rfl, ran⟩
      · rintro ⟨_, ⟨⟩, ran⟩
        rw [ran]
        rfl

theorem holds_of_tick {report : TickReport α}
    (ticked : tick fuel forest handler agent = some (.ok report)) :
    ∃ board, handler.blackboard = some board := by
  rw [tick] at ticked
  cases holds : handler.blackboard with
  | none =>
      rw [holds] at ticked
      cases ticked
  | some board => exact ⟨board, rfl⟩

/-- The report of a tick, if it has one. -/
def reported (outcome : Option (Except TickError (TickReport α))) :
    Option (TickReport α) :=
  outcome.bind Except.toOption

theorem reported_eq_some_iff
    {outcome : Option (Except TickError (TickReport α))} {report : TickReport α} :
    reported outcome = some report ↔ outcome = some (.ok report) := by
  cases outcome with
  | none => simp [reported]
  | some result => cases result <;> simp [reported, Except.toOption]

theorem sweeps_rootPass (handler : Handler α) (forest : Forest)
    (board : Blackboard) (agent : α) :
    ∃ swept, Sweeps swept ({ agent, board := board.beginTick } : Pass α)
      (handler.rootPass forest board agent) :=
  sweeps_abandonEach _ _ _

end Handler

end BehaviorTree
