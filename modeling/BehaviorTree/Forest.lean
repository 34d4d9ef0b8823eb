import BehaviorTree.Tree

/-!
# Forests

The set of trees that handlers bind to and Transition leaves jump into.  The
plain traversal stays within one tree; the traversal of this module follows
Transitions.
-/

namespace BehaviorTree

/-- Trees by id. -/
structure Forest where
  trees : Std.ExtTreeMap TreeId Tree := ∅
deriving Inhabited

namespace Forest

/-- Adds a tree in place of any tree with the same id. -/
def insert (forest : Forest) (tree : Tree) : Forest :=
  ⟨forest.trees.insert tree.id tree⟩

def erase (forest : Forest) (id : TreeId) : Forest := ⟨forest.trees.erase id⟩

/-- Adds a new tree under the next id. -/
def create (forest : Forest) (ids : TreeIds) (name : String)
    (hashing : HashConfig) : TreeId × Forest × TreeIds :=
  let (tree, rest) := Tree.create ids name hashing
  (tree.id, forest.insert tree, rest)

def get? (forest : Forest) (id : TreeId) : Option Tree := forest.trees[id]?

/-- The tree with the lowest id among those with the given name. -/
def byName (forest : Forest) (name : String) : Option Tree :=
  forest.trees.values.find? (·.name = name)

/-- The id of the tree that a selector names. -/
def resolve (forest : Forest) : TreeSelector → Option TreeId
  | .byId id => if forest.trees.contains id then some id else none
  | .byName name => (forest.byName name).map (·.id)

/-- The tree that a selector names. -/
def select (forest : Forest) (selector : TreeSelector) : Option Tree :=
  (forest.resolve selector).bind forest.get?

def node? (forest : Forest) (ref : NodeRef) : Option Node :=
  (forest.get? ref.tree).bind fun tree => tree.nodes[ref.hash]?

/-- `true` if some tree has a node with the given hash. -/
def registers (forest : Forest) (hash : NodeHash) : Bool :=
  forest.trees.any fun _ tree => tree.contains hash

/-- One step of the traversal that follows Transitions: the children of a node,
or the root of the target tree for a Transition that resolves. -/
def childrenFollowing (forest : Forest) (ref : NodeRef) : List NodeRef :=
  match forest.node? ref with
  | none => []
  | some node =>
    match node.kind.transitionTarget with
    | some target =>
      match forest.select target with
      | some tree => [⟨tree.id, tree.root⟩]
      | none => []
    | none => node.children.map (⟨ref.tree, ·⟩)

def isTreeRoot (forest : Forest) (ref : NodeRef) : Bool :=
  match forest.get? ref.tree with
  | some tree => tree.root = ref.hash
  | none => false

/-- Drops the roots of trees that were entered before, last to first, and notes
the trees of the other roots as entered. -/
def firstEntries (forest : Forest) (entered : List TreeId) :
    List NodeRef → List TreeId × List NodeRef
  | [] => (entered, [])
  | ref :: rest =>
    let (entered, kept) := firstEntries forest entered rest
    if forest.isTreeRoot ref then
      if ref.tree ∈ entered then (entered, kept)
      else (ref.tree :: entered, ref :: kept)
    else (entered, ref :: kept)

/-- Pre-order walk of the nodes on a stack and everything below them or behind
a Transition, in at most `fuel` steps. -/
def walkWithin (forest : Forest) :
    Nat → List TreeId → List NodeRef → List NodeRef
  | 0, _, _ => []
  | _, _, [] => []
  | fuel + 1, entered, ref :: rest =>
    let (entered, kept) := forest.firstEntries entered (forest.childrenFollowing ref)
    ref :: walkWithin forest fuel entered (kept ++ rest)

/-- Number of nodes in all trees. -/
def nodeCount (forest : Forest) : Nat :=
  (forest.trees.values.map Tree.nodeCount).foldr (· + ·) 0

/-- Pre-order walk from the root of a tree across Transitions.  Each tree is
entered at most once, so cycles of Transitions end. -/
def walkFollowing (forest : Forest) (id : TreeId) : List NodeRef :=
  match forest.get? id with
  | none => []
  | some tree => forest.walkWithin forest.nodeCount [id] [⟨id, tree.root⟩]

end Forest

end BehaviorTree
