import BehaviorTree.Reference

/-!
# Refused edits and incomplete trees

`TopologyError` lists the reasons for which a structural edit is refused and
`ValidationError` the reason for which a tree cannot be executed.  Each has one
function that words it.
-/

namespace BehaviorTree

/-- What is wrong with the shape of a detached subtree. -/
inductive Malformation where
  | tooManyChildren (kind name : String) (count : Nat)
  | nestedRoot (name parent : String)
deriving DecidableEq

def Malformation.message : Malformation → String
  | tooManyChildren kind name count =>
    kind ++ " '" ++ name ++ "' holds " ++ count.repr ++ " children"
  | nestedRoot name parent =>
    "root node '" ++ name ++ "' nested under '" ++ parent ++ "'"

/-- A structural edit was refused. -/
inductive TopologyError where
  | unknownNode (hash : NodeHash)
  | unknownTree (selector : TreeSelector)
  | leafTarget (hash : NodeHash) (name : String)
  | targetOccupied (hash : NodeHash) (name : String)
  | rootNode
  | notInSource (hash : NodeHash)
  | notComposite (hash : NodeHash)
  | wouldCycle (hash : NodeHash)
  | selfInterpose (hash : NodeHash)
  | malformedSubtree (cause : Malformation)
  | arityMismatch (kind : String) (children : Nat)
  | sameTree (id : TreeId)
deriving DecidableEq

def TopologyError.message : TopologyError → String
  | unknownNode hash => "no node " ++ hash.text ++ " in this tree"
  | unknownTree selector => "no tree " ++ selector.text
  | leafTarget hash name =>
    "'" ++ name ++ "' (" ++ hash.text ++ ") is a leaf and cannot take children"
  | targetOccupied hash name =>
    "'" ++ name ++ "' (" ++ hash.text ++ ") already has its single child"
  | rootNode => "root nodes cannot be moved, copied, swapped or removed"
  | notInSource hash =>
    "node " ++ hash.text ++ " is not registered in the source tree"
  | notComposite hash =>
    "parent of " ++ hash.text ++
      " is not a composite; its children cannot be reordered"
  | wouldCycle hash =>
    "moving " ++ hash.text ++ " there would make it its own ancestor"
  | selfInterpose hash => "cannot interpose " ++ hash.text ++ " above itself"
  | malformedSubtree cause => "malformed subtree: " ++ cause.message
  | arityMismatch kind children =>
    kind ++ " cannot hold " ++ children.repr ++ " children"
  | sameTree id =>
    "cross-tree operation needs two different trees, got " ++ id.text ++ " twice"

/-- The tree is structurally incomplete and cannot be executed. -/
inductive ValidationError where
  | missingChild (hash : NodeHash) (name kind : String)
deriving DecidableEq

def ValidationError.message : ValidationError → String
  | missingChild hash name kind =>
    kind ++ " '" ++ name ++ "' (" ++ hash.text ++ ") has no child"

end BehaviorTree
