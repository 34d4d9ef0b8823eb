/-!
# Documents of a human-written format

The values of a YAML document.  A scalar that is written without quotes has no
type of its own: the place that reads it decides what its text stands for.
-/

namespace BehaviorTree

inductive Yaml where
  | scalar (text : String) (plain : Bool)
  | sequence (items : List Yaml)
  | mapping (entries : List (Yaml × Yaml))
deriving Inhabited

namespace Yaml

/-- A value that is left out. -/
def absent : Yaml := scalar "" true

def isAbsent : Yaml → Bool
  | scalar text plain => plain && text.isEmpty
  | _ => false

mutual

/-- How many collections contain each other at most. -/
def depth : Yaml → Nat
  | sequence items => 1 + depthEach items
  | mapping entries => 1 + depthEntries entries
  | scalar _ _ => 0

def depthEach : List Yaml → Nat
  | [] => 0
  | item :: rest => max item.depth (depthEach rest)

def depthEntries : List (Yaml × Yaml) → Nat
  | [] => 0
  | (key, value) :: rest => max (max key.depth value.depth) (depthEntries rest)

end

end Yaml

end BehaviorTree
