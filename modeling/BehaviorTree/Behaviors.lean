import BehaviorTree.Globals

/-!
# Behaviours

The named predicates and actions to which Condition, Verifier and Command nodes
refer.  Trees hold names only.
-/

namespace BehaviorTree

/-- A predicate.  It may leave a mark on the agent, such as a scripted answer
being used up, but not on the globals. -/
abbrev ConditionFn (α : Type) : Type := α → Globals → Bool × α

/-- A predicate that only reads. -/
def reading {α : Type} (predicate : α → Globals → Bool) : ConditionFn α :=
  fun agent globals => (predicate agent globals, agent)

/-- An action on the agent and the globals. -/
abbrev CommandFn (α : Type) : Type := α → Globals → α × Globals

structure Behaviors (α : Type) where
  conditions : Std.ExtTreeMap String (ConditionFn α) := ∅
  commands : Std.ExtTreeMap String (CommandFn α) := ∅

namespace Behaviors

variable {α : Type}

def withCondition (behaviors : Behaviors α) (name : String)
    (condition : ConditionFn α) : Behaviors α :=
  { behaviors with conditions := behaviors.conditions.insert name condition }

def withCommand (behaviors : Behaviors α) (name : String)
    (command : CommandFn α) : Behaviors α :=
  { behaviors with commands := behaviors.commands.insert name command }

/-- The given predicates and actions under their names; of two with one name the
later one counts. -/
def ofNamed (conditions : List (String × ConditionFn α))
    (commands : List (String × CommandFn α)) : Behaviors α :=
  commands.foldl (fun behaviors (name, command) => behaviors.withCommand name command)
    (conditions.foldl
      (fun behaviors (name, condition) => behaviors.withCondition name condition) {})

def hasCondition (behaviors : Behaviors α) (name : String) : Bool :=
  behaviors.conditions.contains name

def hasCommand (behaviors : Behaviors α) (name : String) : Bool :=
  behaviors.commands.contains name

/-- Asks a predicate; no answer if it is unknown. -/
def check (behaviors : Behaviors α) (name : String) (agent : α)
    (globals : Globals) : Option (Bool × α) :=
  (behaviors.conditions[name]?).map fun condition => condition agent globals

/-- Runs an action; no effect to report if it is unknown. -/
def run (behaviors : Behaviors α) (name : String) (agent : α)
    (globals : Globals) : Option (α × Globals) :=
  (behaviors.commands[name]?).map fun command => command agent globals

end Behaviors

end BehaviorTree
