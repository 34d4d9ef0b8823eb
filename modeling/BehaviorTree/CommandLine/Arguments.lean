import BehaviorTree.NodeHash

/-!
# Arguments of the command line

Options may follow or precede the name of a subcommand when they concern the
whole program, and follow it otherwise.  The first argument that is in error, or
that asks for a help page, decides.
-/

namespace BehaviorTree

namespace CommandLine

inductive Command where
  /-- Tick the built-in forest. -/
  | demo (ticks : Nat) (seed : Option UInt64)
  /-- Tick a tree from a file. -/
  | run (tree : String) (ticks : Nat)
  /-- Show the effective configuration. -/
  | checkConfig
deriving DecidableEq, Inhabited

structure Invocation where
  /-- The directory of the configuration, if it is not the current one. -/
  project : Option String
  command : Command
deriving DecidableEq, Inhabited

/-- The help page of the program or of one of its subcommands. -/
inductive HelpPage where
  | program
  | demo
  | run
  | checkConfig
  | help
deriving DecidableEq

/-- Why arguments do not lead to an invocation. -/
inductive Stop where
  | usage
  | help (page : HelpPage)
  | version
deriving DecidableEq

inductive Setting where
  | project
  | verbose
  | ticks
  | seed
  | tree
  | help
  | version
deriving DecidableEq

namespace Setting

def longName : Setting → String
  | project => "project"
  | verbose => "verbose"
  | ticks => "ticks"
  | seed => "seed"
  | tree => "tree"
  | help => "help"
  | version => "version"

def letter : Setting → Option Char
  | project => some 'p'
  | verbose => some 'v'
  | ticks => some 't'
  | help => some 'h'
  | version => some 'V'
  | seed | tree => none

def takesValue : Setting → Bool
  | project | ticks | seed | tree => true
  | verbose | help | version => false

/-- Numbers have 64 bits at most, and paths are not empty. -/
def accepts (setting : Setting) (value : String) : Bool :=
  match setting with
  | ticks | seed => (readUnsigned value.toList).any (· < UInt64.size)
  | project | tree => !value.isEmpty
  | verbose | help | version => true

end Setting

/-- Settings with their values; those without a value have an empty one. -/
abbrev Given : Type := List (Setting × String)

/-- The place where arguments are read: its help page and its settings. -/
structure Level where
  page : HelpPage
  settings : List Setting

namespace Level

/-- Notes a setting, which may be given once. -/
def note (level : Level) (given : Given) (setting : Setting) (value : String) :
    Except Stop Given :=
  match setting with
  | .help => .error (.help level.page)
  | .version => .error .version
  | setting =>
    if setting ∈ given.map (·.1) ∨ !setting.accepts value then .error .usage
    else .ok (given ++ [(setting, value)])

/-- Takes the value of a setting from the arguments that follow it. -/
def takeValue (level : Level) (given : Given) (setting : Setting) :
    List String → Except Stop (Given × List String)
  | [] => .error .usage
  | value :: rest =>
    if value.startsWith "-" && value ≠ "-" then .error .usage
    else (level.note given setting value).map (·, rest)

/-- A setting by its name, with a value behind an equals sign or in the next
argument. -/
def takeLong (level : Level) (given : Given) (argument : List Char)
    (rest : List String) : Except Stop (Given × List String) :=
  let name := String.ofList (argument.takeWhile (· ≠ '='))
  let attached := argument.dropWhile (· ≠ '=')
  match level.settings.find? (·.longName = name) with
  | none => .error .usage
  | some setting =>
    match setting.takesValue, attached with
    | true, _ :: value => (level.note given setting (String.ofList value)).map (·, rest)
    | true, [] => level.takeValue given setting rest
    | false, [] => (level.note given setting "").map (·, rest)
    | false, _ :: _ => .error .usage

/-- Settings by their letters.  One that takes a value takes what is left of the
argument, or else the next argument. -/
def takeLetters (level : Level) (given : Given) (rest : List String) :
    List Char → Except Stop (Given × List String)
  | [] => .ok (given, rest)
  | letter :: letters =>
    match level.settings.find? (·.letter = some letter) with
    | none => .error .usage
    | some setting =>
      if setting.takesValue then
        match letters with
        | [] => level.takeValue given setting rest
        | '=' :: value => (level.note given setting (String.ofList value)).map (·, rest)
        | value => (level.note given setting (String.ofList value)).map (·, rest)
      else
        match level.note given setting "" with
        | .ok given => level.takeLetters given rest letters
        | .error stop => .error stop

/-- Takes the settings up to the first argument that is none.  Nothing may follow
a double dash. -/
def takeSettings (level : Level) (fuel : Nat) (given : Given) (arguments : List String) :
    Except Stop (Given × List String) :=
  match fuel, arguments with
  | 0, _ => .error .usage
  | _, [] => .ok (given, [])
  | fuel + 1, argument :: rest =>
    match argument.toList with
    | ['-', '-'] => if rest.isEmpty then .ok (given, []) else .error .usage
    | '-' :: '-' :: name =>
      match level.takeLong given name rest with
      | .ok (given, rest) => level.takeSettings fuel given rest
      | .error stop => .error stop
    | '-' :: letter :: letters =>
      match level.takeLetters given rest (letter :: letters) with
      | .ok (given, rest) => level.takeSettings fuel given rest
      | .error stop => .error stop
    | _ => .ok (given, argument :: rest)

/-- Every argument is a setting. -/
def readSettings (level : Level) (arguments : List String) : Except Stop Given :=
  match level.takeSettings (arguments.length + 1) [] arguments with
  | .ok (given, []) => .ok given
  | .ok (_, _ :: _) => .error .usage
  | .error stop => .error stop

end Level

/-- The settings of the program itself, which its subcommands share. -/
def shared : List Setting := [.project, .verbose, .help]

def numberOf (given : Given) (setting : Setting) : Option Nat :=
  (given.lookup setting).bind fun value => readUnsigned value.toList

def parseDemo (arguments : List String) : Except Stop (Given × Command) := do
  let given ← Level.readSettings ⟨.demo, .ticks :: .seed :: shared⟩ arguments
  let ticks := (numberOf given .ticks).getD 10
  return (given, .demo ticks ((numberOf given .seed).map Nat.toUInt64))

def parseRun (arguments : List String) : Except Stop (Given × Command) := do
  let given ← Level.readSettings ⟨.run, .tree :: .ticks :: shared⟩ arguments
  match given.lookup .tree with
  | none => .error .usage
  | some tree => return (given, .run tree ((numberOf given .ticks).getD 1))

def parseCheckConfig (arguments : List String) : Except Stop (Given × Command) := do
  let given ← Level.readSettings ⟨.checkConfig, shared⟩ arguments
  return (given, .checkConfig)

/-- The help page that is asked for by name. -/
def helpOn : List String → Stop
  | [] => .help .program
  | ["demo"] => .help .demo
  | ["run"] => .help .run
  | ["check-config"] => .help .checkConfig
  | ["help"] => .help .help
  | _ => .usage

def parseCommand : List String → Except Stop (Given × Command)
  | "demo" :: rest => parseDemo rest
  | "run" :: rest => parseRun rest
  | "check-config" :: rest => parseCheckConfig rest
  | "help" :: rest => .error (helpOn rest)
  | _ => .error .usage

/-- What the arguments of the program ask for.  A project directory behind the
subcommand wins over one before it. -/
def parse (arguments : List String) : Except Stop Invocation := do
  let level : Level := ⟨.program, .version :: shared⟩
  let (outer, rest) ← level.takeSettings (arguments.length + 1) [] arguments
  let (inner, command) ← parseCommand rest
  return { project := inner.lookup .project <|> outer.lookup .project, command }

end CommandLine

end BehaviorTree
