import BehaviorTree.CommandLine.Arguments

/-!
# Help pages
-/

namespace BehaviorTree

namespace CommandLine

/-- The name and the number of this version of the program. -/
def versionLine : String := "canopy 0.1.0"

namespace HelpPage

def programLines : List String :=
  ["Behavior-tree engine driver",
   "",
   "Usage: canopy [OPTIONS] <COMMAND>",
   "",
   "Commands:",
   "  demo          Tick the built-in demo forest",
   "  run           Tick a tree loaded from a YAML subtree file",
   "  check-config  Load canopy.yaml and print the effective configuration",
   "  help          Print this message or the help of the given subcommand(s)",
   "",
   "Options:",
   "  -p, --project <PROJECT>  Directory holding canopy.yaml",
   "  -v, --verbose            Verbose output",
   "  -h, --help               Print help",
   "  -V, --version            Print version"]

def demoLines : List String :=
  ["Tick the built-in demo forest",
   "",
   "Usage: canopy demo [OPTIONS]",
   "",
   "Options:",
   "  -p, --project <PROJECT>  Directory holding canopy.yaml",
   "  -t, --ticks <TICKS>      Number of ticks [default: 10]",
   "      --seed <SEED>        Override the handler seed from the config",
   "  -v, --verbose            Verbose output",
   "  -h, --help               Print help"]

def runLines : List String :=
  ["Tick a tree loaded from a YAML subtree file",
   "",
   "Usage: canopy run [OPTIONS] --tree <TREE>",
   "",
   "Options:",
   "  -p, --project <PROJECT>  Directory holding canopy.yaml",
   "      --tree <TREE>        Subtree file; its top node becomes the root's child",
   "  -t, --ticks <TICKS>      Number of ticks [default: 1]",
   "  -v, --verbose            Verbose output",
   "  -h, --help               Print help"]

def checkConfigLines : List String :=
  ["Load canopy.yaml and print the effective configuration",
   "",
   "Usage: canopy check-config [OPTIONS]",
   "",
   "Options:",
   "  -p, --project <PROJECT>  Directory holding canopy.yaml",
   "  -v, --verbose            Verbose output",
   "  -h, --help               Print help"]

def helpLines : List String :=
  ["Print this message or the help of the given subcommand(s)",
   "",
   "Usage: canopy help [COMMAND]...",
   "",
   "Arguments:",
   "  [COMMAND]...  Print help for the subcommand(s)"]

def lines : HelpPage → List String
  | program => programLines
  | demo => demoLines
  | run => runLines
  | checkConfig => checkConfigLines
  | help => helpLines

end HelpPage

end CommandLine

end BehaviorTree
