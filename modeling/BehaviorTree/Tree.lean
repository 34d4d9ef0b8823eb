import BehaviorTree.Subtree
import BehaviorTree.HashMinter

/-!
# Trees

A tree is a registry of nodes keyed by hash, a root, and the minter of its
hashes.  Nodes refer to their parent and children by hash, so every traversal
looks its way up in the registry.  Traversals are bounded by the size of the
registry, which no path and no walk of a consistent tree exceeds.
-/

namespace BehaviorTree

/-- One registered node.  The parent is a back-reference; a node does not know
the tree that owns it. -/
structure Node where
  name : String
  hash : NodeHash
  parent : Option NodeHash
  children : List NodeHash
  /-- Used when a probabilistic parent draws among its children. -/
  weight : Float
  kind : NodeKind
deriving Inhabited

namespace Node

def arity (node : Node) : Arity := node.kind.arity

/-- The root of a new tree. -/
def freshRoot (hash : NodeHash) : Node :=
  { name := "root", hash, parent := none, children := [], weight := 1.0
    kind := .root }

/-- The node with `child` inserted at `index` among its children, unless its
designated child cannot be followed. -/
def insertChild (node : Node) (index : Nat) (child : NodeHash) : Option Node :=
  (node.kind.childAdded index).map fun kind =>
    { node with children := node.children.insertIdx index child, kind }

/-- The node without the child at `index`. -/
def removeChild (node : Node) (index : Nat) : Node :=
  { node with
    children := node.children.eraseIdx index
    kind := node.kind.childRemoved index }

/-- The node with its child at `index` replaced by another node. -/
def replaceChild (node : Node) (index : Nat) (child : NodeHash) : Node :=
  { node with
    children := node.children.set index child
    kind := node.kind.childReplaced index }

/-- The node with `host` in the slot of its child at `index`; a Parallel that
designates the slot goes on to designate it. -/
def hostChild (node : Node) (index : Nat) (host : NodeHash) : Node :=
  { node with children := node.children.set index host }

/-- The node with the child at `source` moved to `target`. -/
def moveChild (node : Node) (source target : Nat) (child : NodeHash) : Node :=
  { node with
    children := (node.children.eraseIdx source).insertIdx target child
    kind := node.kind.childMoved source target }

/-- The node with two of its children exchanged. -/
def swapChildren (node : Node) (firstIndex secondIndex : Nat)
    (first second : NodeHash) : Node :=
  { node with
    children := (node.children.set firstIndex second).set secondIndex first
    kind := node.kind.childrenSwapped firstIndex secondIndex }

end Node

/-- Nodes by hash, in the order of hashes. -/
abbrev Registry := Std.ExtTreeMap NodeHash Node

/-- Hands out the ids of trees. -/
structure TreeIds where
  next : UInt64 := 1
deriving DecidableEq, Inhabited

namespace TreeIds

/-- The next id. -/
def take (ids : TreeIds) : TreeId × TreeIds :=
  (⟨ids.next⟩, ⟨ids.next + 1⟩)

/-- Keeps the ids up to a chosen one from being handed out; the largest id has
no successor and stays available. -/
def reserve (ids : TreeIds) (id : TreeId) : TreeIds :=
  let successor := if id.value = 0xFFFFFFFFFFFFFFFF then id.value else id.value + 1
  ⟨max ids.next successor⟩

end TreeIds

/-- A behaviour tree. -/
structure Tree where
  id : TreeId
  name : String
  /-- Kind of agent to which the tree is restricted. -/
  agentKind : Option String
  root : NodeHash
  nodes : Registry
  minter : HashMinter
deriving Inhabited

namespace Tree

/-- A tree with nothing but a root. -/
def build (id : TreeId) (name : String) (hashing : HashConfig) : Tree :=
  let (root, minter) := (HashMinter.new id hashing).candidate
  { id, name, agentKind := none, root
    nodes := (∅ : Registry).insert root (.freshRoot root)
    minter }

/-- A new tree under the next id. -/
def create (ids : TreeIds) (name : String) (hashing : HashConfig) :
    Tree × TreeIds :=
  let (id, rest) := ids.take
  (build id name hashing, rest)

/-- A new tree under a chosen id, which is kept from being handed out. -/
def createAs (ids : TreeIds) (id : TreeId) (name : String)
    (hashing : HashConfig) : Tree × TreeIds :=
  (build id name hashing, ids.reserve id)

def hashConfig (tree : Tree) : HashConfig := tree.minter.config

def contains (tree : Tree) (hash : NodeHash) : Bool := tree.nodes.contains hash

/-- The node registered as the root. -/
def rootNode (tree : Tree) : Node :=
  (tree.nodes[tree.root]?).getD (.freshRoot tree.root)

/-- Number of registered nodes, root included. -/
def nodeCount (tree : Tree) : Nat := tree.nodes.size

/-- The nodes with the given name, in the order of hashes. -/
def findByName (tree : Tree) (name : String) : List Node :=
  tree.nodes.values.filter (·.name = name)

/-- The children of a node; none if it is not registered. -/
def childrenOf (tree : Tree) (hash : NodeHash) : List NodeHash :=
  match tree.nodes[hash]? with
  | some node => node.children
  | none => []

/-- The parent of a registered node. -/
def parentOf (tree : Tree) (hash : NodeHash) : Option NodeHash :=
  (tree.nodes[hash]?).bind (·.parent)

/-- Pre-order walk of the nodes on a stack and everything below them, in at
most `fuel` steps. -/
def walkWithin (tree : Tree) : Nat → List NodeHash → List NodeHash
  | 0, _ => []
  | _, [] => []
  | fuel + 1, hash :: rest =>
    hash :: walkWithin tree fuel (tree.childrenOf hash ++ rest)

/-- Pre-order walk of a registered node and everything below it.  One step more
than there are nodes tells a walk that meets a node twice from one that does
not. -/
def descendants (tree : Tree) (hash : NodeHash) : List NodeHash :=
  if tree.contains hash then tree.walkWithin (tree.nodes.size + 1) [hash]
  else []

/-- Pre-order list of a node and everything below it with their depths, at most
`fuel` levels deep. -/
def outlineWithin (tree : Tree) : Nat → Nat → NodeHash → List (Nat × Node)
  | 0, _, _ => []
  | fuel + 1, depth, hash =>
    match tree.nodes[hash]? with
    | none => []
    | some node =>
      (depth, node) :: node.children.flatMap (outlineWithin tree fuel (depth + 1))

/-- Pre-order list of the nodes with their depths. -/
def outline (tree : Tree) : List (Nat × Node) :=
  tree.outlineWithin tree.nodes.size 0 tree.root

/-- The node to which child positions lead from another node. -/
def descend (tree : Tree) : NodeHash → List Nat → Option NodeHash
  | hash, [] => some hash
  | hash, index :: rest =>
    match (tree.childrenOf hash)[index]? with
    | some child => tree.descend child rest
    | none => none

/-- `true` if `ancestor` is among the next `fuel` nodes above `hash`. -/
def isAncestorWithin (tree : Tree) (ancestor : NodeHash) : Nat → NodeHash → Bool
  | 0, _ => false
  | fuel + 1, hash =>
    match tree.parentOf hash with
    | none => false
    | some parent => parent = ancestor || isAncestorWithin tree ancestor fuel parent

/-- `true` if `ancestor` lies strictly above `hash`. -/
def isAncestor (tree : Tree) (ancestor hash : NodeHash) : Bool :=
  tree.isAncestorWithin ancestor tree.nodes.size hash

/-- Position of a node among the children of its parent. -/
def indexInParent (tree : Tree) (hash : NodeHash) : Option Nat := do
  let parent ← tree.parentOf hash
  let node ← tree.nodes[parent]?
  node.children.findIdx? (· = hash)

/-- Copies a node and its descendants down to the given depth. -/
def cloneWithin (tree : Tree) : Nat → NodeHash → Option Subtree
  | 0, _ => none
  | depth + 1, hash =>
    match tree.nodes[hash]? with
    | none => none
    | some node =>
      some
        { name := node.name
          hash := some node.hash
          weight := node.weight
          kind := node.kind
          children := node.children.filterMap (cloneWithin tree depth) }

/-- Owned copy of a node and its descendants, hashes included. -/
def cloneSubtree (tree : Tree) (hash : NodeHash) : Option Subtree :=
  tree.cloneWithin tree.nodes.size hash

/-- Reports the first Root or decorator, in pre-order, that has no child. -/
def validate (tree : Tree) : Except ValidationError Unit :=
  let childless := (tree.descendants tree.root).filterMap fun hash =>
    match tree.nodes[hash]? with
    | some node =>
      if node.arity = .single ∧ node.children = [] then some (hash, node)
      else none
    | none => none
  match childless with
  | [] => .ok ()
  | (hash, node) :: _ =>
    .error (.missingChild hash node.name node.kind.label)

/-- The parent of a node that has one lists it exactly once; only the root has
none. -/
def parentAgrees (tree : Tree) (hash : NodeHash) (node : Node) : Bool :=
  match node.parent with
  | none => hash = tree.root
  | some parent =>
    match tree.nodes[parent]? with
    | some parentNode => parentNode.children.count hash = 1
    | none => false

/-- Every listed child is registered and names the node as its parent. -/
def childrenAgree (tree : Tree) (hash : NodeHash) (node : Node) : Bool :=
  node.children.all fun child =>
    match tree.nodes[child]? with
    | some childNode => childNode.parent = some hash
    | none => false

/-- Checks the structural invariants from scratch. -/
def isConsistent (tree : Tree) : Bool :=
  (tree.descendants tree.root).length = tree.nodes.size &&
    tree.nodes.all fun hash node =>
      hash = node.hash && tree.parentAgrees hash node &&
        tree.childrenAgree hash node &&
        node.arity.allows node.children.length

end Tree

end BehaviorTree
