import BehaviorTree.NodeKind
import BehaviorTree.TopologyError

/-!
# Detached subtrees

A node and its descendants owned by value.  This is how nodes move between
trees: removing a node yields a subtree, adding one registers it.
-/

namespace BehaviorTree

/-- A detached node with its descendants.  The hash is a hint: the tree that
registers the node decides whether it survives. -/
structure Subtree where
  name : String
  hash : Option NodeHash := none
  weight : Float := 1.0
  kind : NodeKind
  children : List Subtree := []
deriving Inhabited

namespace Subtree

mutual

/-- Number of nodes, this one included. -/
def nodeCount : Subtree → Nat
  | ⟨_, _, _, _, children⟩ => 1 + nodeCountList children

/-- Number of nodes in a list of subtrees. -/
def nodeCountList : List Subtree → Nat
  | [] => 0
  | child :: rest => child.nodeCount + nodeCountList rest

end

mutual

/-- Checks the arities from a node downwards, and that no Root lies below. -/
def checkShape : Subtree → Except TopologyError Unit
  | ⟨name, _, _, kind, children⟩ =>
    if kind.arity.allows children.length then checkChildren name children
    else .error
      (.malformedSubtree (.tooManyChildren kind.label name children.length))

/-- Checks the children of the node called `parent`, first to last. -/
def checkChildren (parent : String) : List Subtree → Except TopologyError Unit
  | [] => .ok ()
  | child :: rest =>
    if child.kind.isRoot then
      .error (.malformedSubtree (.nestedRoot child.name parent))
    else
      match child.checkShape with
      | .error refusal => .error refusal
      | .ok () => checkChildren parent rest

end

/-- Shape check before attaching: no Root anywhere, and every node within the
arity of its kind.  Decorators may still be empty. -/
def check (subtree : Subtree) : Except TopologyError Unit :=
  if subtree.kind.isRoot then .error .rootNode else subtree.checkShape

end Subtree

end BehaviorTree
