import BehaviorTree.Forest
import BehaviorTree.Tree.Edit

/-!
# Structural edits of a forest

The edits of a tree with the node taken from another tree of the forest, or
from the same one.
-/

namespace BehaviorTree

namespace Forest

/-- Runs an edit on the tree with the given id. -/
def editTree {β : Type} (id : TreeId) (edit : Edit Tree β) : Edit Forest β := do
  match (← get).get? id with
  | none => Edit.refuse (.unknownTree (.byId id))
  | some tree => Edit.zoom (fun _ => tree) (fun tree forest => forest.insert tree) edit

/-- Two distinct trees of the forest. -/
def pair (forest : Forest) (dest source : TreeId) :
    Except TopologyError TreePair :=
  if dest = source then .error (.sameTree dest)
  else
    match forest.get? dest, forest.get? source with
    | some dest, some source => .ok { dest, source }
    | none, _ => .error (.unknownTree (.byId dest))
    | some _, none => .error (.unknownTree (.byId source))

/-- Runs an edit on two distinct trees. -/
def editPair {β : Type} (pair : Except TopologyError TreePair)
    (edit : Edit TreePair β) : Edit Forest β := do
  let pair ← Edit.require pair
  Edit.zoom (fun _ => pair)
    (fun pair forest => (forest.insert pair.dest).insert pair.source) edit

/-- The two trees of a transfer; a missing source is reported before a missing
destination. -/
def transferPair (forest : Forest) (source dest : TreeId) :
    Except TopologyError TreePair :=
  match forest.pair source dest with
  | .ok pair => .ok { dest := pair.source, source := pair.dest }
  | .error refusal => .error refusal

/-- Attaches a node of one tree below a node of another. -/
def addAcross (source : TreeId) (hash : NodeHash) (dest : TreeId)
    (target : NodeHash) (position : Option Nat) (copying : Bool) :
    Edit Forest NodeHash := do
  if source = dest then
    editTree dest (Tree.add (.resident hash) target position copying)
  else
    editPair ((← get).transferPair source dest)
      (Tree.addForeign hash target position copying)

/-- Splices a node of one tree in above a node of another. -/
def interposeAcross (source : TreeId) (hash : NodeHash) (dest : TreeId)
    (target : NodeHash) (position : Option Nat) (copying : Bool) :
    Edit Forest NodeHash := do
  if source = dest then
    editTree dest (Tree.interpose (.resident hash) target position copying)
  else
    editPair ((← get).transferPair source dest)
      (Tree.interposeForeign hash target position copying)

/-- Exchanges two nodes that may live in different trees.  Returns the hashes
of the two nodes after the exchange. -/
def swapAcross (firstTree : TreeId) (first : NodeHash) (secondTree : TreeId)
    (second : NodeHash) : Edit Forest (NodeHash × NodeHash) := do
  if firstTree = secondTree then
    editTree firstTree (Tree.swap first second)
    return (first, second)
  else
    editPair ((← get).pair firstTree secondTree) (Tree.swapForeign first second)

end Forest

end BehaviorTree
