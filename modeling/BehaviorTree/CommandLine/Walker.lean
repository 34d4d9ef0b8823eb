import BehaviorTree.Agent
import BehaviorTree.Behaviors

/-!
# The walker

The stand-in agent that the command line drives.  Its behaviours touch nothing
but its own fields and the alarm among the globals.
-/

namespace BehaviorTree

structure Walker where
  id : UInt64 := 1
  tick : UInt64 := 0
  stamina : Nat := 2
  lastAction : Option String := none
deriving DecidableEq, Inhabited

instance : Agent Walker where
  stableId walker := walker.id
  kind _ := "walker"

namespace Walker

/-- The name under which the globals hold the alarm. -/
def alarmKey : String := "alarm"

def hearsAlarm (globals : Globals) : Bool :=
  match globals.values[alarmKey]? with
  | some (.bool alarm) => alarm
  | _ => false

def conditions : List (String × ConditionFn Walker) :=
  [("always", reading fun _ _ => true),
   ("never", reading fun _ _ => false),
   ("even_tick", reading fun walker _ => walker.tick % 2 = 0),
   ("tired", reading fun walker _ => walker.stamina = 0),
   ("alarm", reading fun _ globals => hearsAlarm globals)]

def commands : List (String × CommandFn Walker) :=
  [("rest", fun walker globals =>
     ({ walker with stamina := walker.stamina + 3 }, globals)),
   ("walk", fun walker globals =>
     ({ walker with stamina := walker.stamina - 1 }, globals)),
   ("look", fun walker globals => (walker, globals)),
   ("raise_alarm", fun walker globals =>
     (walker, globals.setValue alarmKey (.bool true))),
   ("flee", fun walker globals => (walker, globals.eraseValue alarmKey))]

/-- A command that is noted on the walker under its name. -/
def noted (name : String) (command : CommandFn Walker) : CommandFn Walker :=
  fun walker globals =>
    let (walker, globals) := command walker globals
    ({ walker with lastAction := some name }, globals)

def behaviors : Behaviors Walker :=
  .ofNamed conditions (commands.map fun (name, command) => (name, noted name command))

end Walker

end BehaviorTree
