import BehaviorTree.Blackboard.Json
import BehaviorTree.CommandLine.Demo
import BehaviorTree.CommandLine.Help
import BehaviorTree.CommandLine.Walker
import BehaviorTree.Config.Yaml
import BehaviorTree.Handler
import BehaviorTree.Subtree.Yaml

/-!
# The command line

What a run of the program prints, as a function of its arguments and of the files
that it finds.
-/

namespace BehaviorTree

namespace CommandLine

/-- What a run prints, and its exit code. -/
structure Outcome where
  exit : Nat := 0
  lines : List String := []
  /-- The blackboard at the end, printed after the lines. -/
  blackboard : Option Json := none
  message : Option String := none

/-- The directory and the files that a run can see. -/
structure Surroundings where
  directory : String
  file : String → FileContent

/-- A run that ends with an error after printing some lines. -/
structure Failure where
  lines : List String := []
  message : String

def Failure.outcome (failure : Failure) : Outcome :=
  { exit := 1, lines := failure.lines, message := some ("Error: " ++ failure.message) }

/-- The path of a file in a directory; an absolute path stays what it is. -/
def pathIn (directory name : String) : String :=
  if name.startsWith "/" then name
  else if directory.endsWith "/" then directory ++ name
  else directory ++ "/" ++ name

/-- The path of the configuration file. -/
def configPath (invocation : Invocation) (directory : String) : String :=
  pathIn (invocation.project.getD directory) EngineConfig.fileName

/-- The files that an invocation reads. -/
def filesRead (invocation : Invocation) (directory : String) : List String :=
  configPath invocation directory ::
    match invocation.command with
    | .run tree _ => [tree]
    | _ => []

/-- More steps than a pass that comes to an end takes. -/
def plenty : Nat := 1000000000000

def padLeft (width : Nat) (text : String) : String :=
  String.ofList (List.replicate (width - text.length) ' ') ++ text

def padRight (width : Nat) (text : String) : String :=
  text ++ String.ofList (List.replicate (width - text.length) ' ')

/-- The line of one tick: its number, the status and the walker's last action. -/
def tickLine (number : Nat) (status : Status) (walker : Walker) : String :=
  "tick " ++ padLeft 3 number.repr ++ "  " ++ padRight 8 status.text ++ "  " ++
    walker.lastAction.getD "-"

/-- Ticks a handler for the ticks after the first `done` ones.  Returns the lines
of the ticks and the handler at the end. -/
def runTicks (forest : Forest) (done : Nat) :
    Nat → Handler Walker × Walker → Except Failure (List String × Handler Walker)
  | 0, (handler, _) => .ok ([], handler)
  | count + 1, (handler, walker) =>
    let number := done + 1
    let walker := { walker with tick := number.toUInt64 }
    match Handler.step plenty forest (handler, walker) with
    | none => .error { message := "the tick does not come to an end" }
    | some (.error cause, _) => .error { message := cause.message }
    | some (.ok status, pair) =>
      let line := tickLine number status pair.2
      match runTicks forest number count pair with
      | .ok (lines, handler) => .ok (line :: lines, handler)
      | .error failure => .error { failure with lines := line :: failure.lines }

/-- Sets up a walker on a tree and ticks it. -/
def drive (forest : Forest) (tree : String) (config : HandlerConfig) (ticks : Nat) :
    Outcome :=
  let walker : Walker := {}
  let handler : Handler Walker := { behaviors := Walker.behaviors, config }
  match Handler.setup forest walker (some (.byName tree)) false handler with
  | .error cause _ => Failure.outcome { message := cause.message }
  | .ok _ handler =>
    match runTicks forest 0 ticks (handler, walker) with
    | .error failure => failure.outcome
    | .ok (lines, handler) =>
      { lines, blackboard := handler.blackboard.map Blackboard.snapshot }

/-- Drives a planted forest, if planting did not fail. -/
def driveForest (forest : Except EditError Forest) (tree : String)
    (config : HandlerConfig) (ticks : Nat) : Outcome :=
  match forest with
  | .ok forest => drive forest tree config ticks
  | .error (.refused cause) => Failure.outcome { message := cause.message }
  | .error (.exhausted cause) => { exit := 101, message := some cause.message }

def runDemo (config : EngineConfig) (ticks : Nat) (seed : Option UInt64) : Outcome :=
  let handler := { config.handler with seed := seed.getD config.handler.seed }
  driveForest (demoForest config.hashing) "patrol" handler ticks

/-- Reads the subtree of a tree file. -/
def loadSubtree (path : String) : FileContent → Except Failure Subtree
  | .text content =>
    match (Yaml.parse content).bind Subtree.ofYaml with
    | some subtree => .ok subtree
    | none => .error { message := "Failed to parse tree from " ++ path }
  | _ => .error { message := "Failed to read tree from " ++ path }

def runTree (config : EngineConfig) (path : String) (file : FileContent)
    (ticks : Nat) : Outcome :=
  match loadSubtree path file with
  | .error failure => failure.outcome
  | .ok subtree =>
    driveForest (plant config.hashing [("main", subtree)]) "main" config.handler ticks

/-- Runs an invocation. -/
def invoke (surroundings : Surroundings) (invocation : Invocation) : Outcome :=
  let path := configPath invocation surroundings.directory
  match EngineConfig.loadFromProject (surroundings.file path) with
  | .error failure =>
    Failure.outcome { message := EngineConfig.failureMessage path failure }
  | .ok config =>
    match invocation.command with
    | .demo ticks seed => runDemo config ticks seed
    | .run tree ticks => runTree config tree (surroundings.file tree) ticks
    | .checkConfig => { lines := config.yamlLines ++ [""] }

/-- What the program prints when there is nothing to run. -/
def stopOutcome : Stop → Outcome
  | .usage => { exit := 2, message := some "error: see 'canopy --help' for usage" }
  | .help page => { lines := page.lines }
  | .version => { lines := [versionLine] }

/-- What the program prints for its arguments. -/
def run (surroundings : Surroundings) (arguments : List String) : Outcome :=
  match parse arguments with
  | .ok invocation => invoke surroundings invocation
  | .error stop => stopOutcome stop

end CommandLine

end BehaviorTree
