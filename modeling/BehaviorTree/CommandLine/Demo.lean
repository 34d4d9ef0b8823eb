import BehaviorTree.Config
import BehaviorTree.Forest.Edit

/-!
# The forests of the command line

A built-in guard who patrols and panics, and a forest with a single tree.
-/

namespace BehaviorTree

namespace CommandLine

/-- A composite or decorator over some children. -/
def branch (name : String) (kind : NodeKind) (children : List Subtree) : Subtree :=
  { name, kind, children }

def conditionLeaf (name predicate : String) : Subtree :=
  { name, kind := .condition predicate }

def commandLeaf (name action : String) : Subtree := { name, kind := .command action }

/-- Hands over to the tree for emergencies while the alarm is raised. -/
def react : Subtree :=
  branch "react" .sequence
    [conditionLeaf "alarmed?" "alarm",
     { name := "to panic", kind := .transition (some (.byName "panic")) }]

/-- Rests when tired. -/
def recover : Subtree :=
  branch "rest" .sequence [conditionLeaf "tired?" "tired", commandLeaf "sleep" "rest"]

/-- Mostly walks, sometimes looks around, and raises the alarm at most once. -/
def wander : Subtree :=
  branch "wander" .probSelector
    [{ commandLeaf "walk" "walk" with weight := 3.0 },
     commandLeaf "look" "look",
     { branch "maybe alarm" (.limiter 1) [commandLeaf "raise" "raise_alarm"] with
       weight := 0.5 }]

def patrol : Subtree := branch "top" .selector [react, recover, wander]

def flight : Subtree :=
  branch "shout" (.echoDecorator "panicking") [commandLeaf "run away" "flee"]

/-- Puts a subtree below the root of a tree. -/
def addTop (id : TreeId) (subtree : Subtree) : Edit Forest NodeHash := do
  match (← get).get? id with
  | none => Edit.refuse (.unknownTree (.byId id))
  | some tree => Forest.editTree id (Tree.add (.detached subtree) tree.root none false)

/-- Creates an empty tree for each name, with ids from one on, and then puts the
subtree of the name below its root. -/
def plant (hashing : HashConfig) (trees : List (String × Subtree)) :
    Except EditError Forest :=
  let (ids, forest, _) := trees.foldl
    (fun (ids, forest, counter) (name, _) =>
      let (id, forest, counter) := Forest.create forest counter name hashing
      (ids ++ [id], forest, counter))
    (([] : List TreeId), ({} : Forest), ({} : TreeIds))
  let planting : Edit Forest Unit :=
    (ids.zip (trees.map (·.2))).forM fun (id, subtree) => do
      let _ ← addTop id subtree
  match planting forest with
  | .ok _ forest => .ok forest
  | .error cause _ => .error cause

def demoForest (hashing : HashConfig) : Except EditError Forest :=
  plant hashing [("patrol", patrol), ("panic", flight)]

end CommandLine

end BehaviorTree
