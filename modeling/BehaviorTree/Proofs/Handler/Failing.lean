import BehaviorTree.Proofs.Grove
import BehaviorTree.Proofs.Handler.Ticking

/-!
# Errors of handler ticks

A handler tick records one message if it comes to an error and none otherwise.
The error travels from the node with which it arises to the root; no other node
is ticked meanwhile.  Apart from the message the globals are what the calls of
behaviours make of them.
-/

namespace BehaviorTree

open BehaviorTree.Pass

variable {α : Type}

/-- An error arises in a log, the message explains it, and all updates that are
under way come to it. -/
def Explains (setting : Setting α) (log : List Activity) (message : String) :
    Prop :=
  ∃ earlier first later, log = earlier ++ first :: later ∧
    Collapses earlier first later ∧ Raises setting first message

namespace Handler

variable {fuel : Nat} {forest : Forest} {handler : Handler α}
  {board : Blackboard} {agent : α} {report : TickReport α}

/-- The agent and the globals are those to which the calls of behaviours lead, but
for the one message of a tick that comes to an error. -/
theorem account_of_tick (holds : handler.blackboard = some board)
    (ticked : tick fuel forest handler agent = some (.ok report)) :
    ∃ calls globals swept growth,
      report.pass.log = sweep swept ++ growth ∧
      handler.behaviors.Performs calls (agent, board.globals)
        (report.pass.agent, globals) ∧
      Call.actions calls = ranActions report.pass.log ∧
      (report.status ≠ .error →
        report.pass.board.globals = globals ∧
        ∀ activity ∈ growth, activity.isError = false) ∧
      (report.status = .error → ∃ message,
        report.pass.board.globals = globals.addError message ∧
        Explains (handler.setting forest) growth message) := by
  obtain ⟨tree, _, rooted⟩ := (tick_eq_ok_iff holds).mp ticked
  obtain ⟨swept, sweeps⟩ := handler.sweeps_rootPass forest board agent
  have log : (handler.rootPass forest board agent).log = sweep swept :=
    sweeps.log
  obtain ⟨isSmooth, isBreaking⟩ :=
    PassM.breaking_of_tick sweeps.reserved.exhausted rooted
  have starts : ((handler.rootPass forest board agent).agent,
      (handler.rootPass forest board agent).board.globals) =
      (agent, board.globals) :=
    congrArg₂ Prod.mk sweeps.reserved.agent sweeps.reserved.globals
  by_cases good : report.status = .error
  · obtain ⟨growth, message, breaks⟩ := isBreaking good
    obtain ⟨calls, globals, performed, actions, recorded⟩ := breaks.performs
    obtain ⟨earlier, first, later, split, collapses, raises, _⟩ :=
      breaks.collapses
    rw [starts] at performed
    refine ⟨calls, globals, swept, growth, by rw [breaks.log, log], performed, ?_,
      fun differs => absurd good differs, fun _ =>
        ⟨message, recorded, earlier, first, later, split, collapses, raises⟩⟩
    rw [breaks.log, log, ranActions_append, ranActions_sweep, List.nil_append,
      actions]
  · obtain ⟨growth, smooth⟩ := isSmooth good
    obtain ⟨calls, performed, actions⟩ := smooth.performs
    rw [starts] at performed
    refine ⟨calls, _, swept, growth, by rw [smooth.log, log], performed, ?_,
      fun _ => ⟨rfl, smooth.calm⟩, fun same => absurd same good⟩
    rw [smooth.log, log, ranActions_append, ranActions_sweep, List.nil_append,
      actions]

/-- A walk to a shop, which is a tree of its own. -/
def errand : Subtree :=
  { name := "go", hash := some ⟨"go-1"⟩, kind := .sequence
    children :=
      [{ name := "step", hash := some ⟨"step-1"⟩, kind := .command "step" },
       { name := "enter", hash := some ⟨"enter-1"⟩
         kind := .transition (some (.byId ⟨2⟩)) }] }

/-- A shop that sells thrice while it is open. -/
def shop : Subtree :=
  { name := "buy", hash := some ⟨"buy-2"⟩, kind := .limiter 3
    children :=
      [{ name := "open", hash := some ⟨"open-2"⟩, kind := .condition "open" }] }

def errandSteps : List Grove.Step :=
  [.build ⟨1⟩ "errand" {},
   .edit 0 (.add (.detached errand) (Tree.build ⟨1⟩ "errand" {}).root none false),
   .build ⟨2⟩ "shop" {},
   .edit 1 (.add (.detached shop) (Tree.build ⟨2⟩ "shop" {}).root none false)]

/-- One who goes on errands, and knows only the way. -/
def walker : Handler UInt64 :=
  { behaviors := ({} : Behaviors UInt64).withCommand "step"
      fun agent globals => (agent, globals.claim "road")
    blackboard := some (.new ⟨1⟩ 0 0 {}) }

end Handler

end BehaviorTree
