import BehaviorTree.Edit

/-!
# Structural edits of a tree

Every edit checks all of its preconditions before it touches the registry.
Moving a node takes it out of the registry as a subtree and registers that
subtree at its new place.
-/

namespace BehaviorTree

/-- The place of a node below its parent. -/
structure Slot where
  parent : NodeHash
  index : Nat
deriving DecidableEq

/-- A node about to be attached: a detached subtree, or a node registered in
the destination tree. -/
inductive NodeOrigin where
  | detached (subtree : Subtree)
  | resident (hash : NodeHash)

/-- Two trees, one of which takes in nodes of the other. -/
structure TreePair where
  dest : Tree
  source : Tree

namespace Edit

def onDest {β : Type} (edit : Edit Tree β) : Edit TreePair β :=
  zoom TreePair.dest (fun dest pair => { pair with dest }) edit

def onSource {β : Type} (edit : Edit Tree β) : Edit TreePair β :=
  zoom TreePair.source (fun source pair => { pair with source }) edit

end Edit

/-- A position among `count` slots; the last one when none is given. -/
def clampPosition (position : Option Nat) (count : Nat) : Nat :=
  min (position.getD count) count

/-- A node with `children` children can take one more in. -/
def checkHost (kind : NodeKind) (hash : NodeHash) (name : String)
    (children : Nat) : Except TopologyError Unit :=
  match kind.arity with
  | .leaf => .error (.leafTarget hash name)
  | .single =>
    if children > 0 then .error (.targetOccupied hash name) else .ok ()
  | .many => .ok ()

namespace Tree

def find (tree : Tree) (hash : NodeHash) : Except TopologyError Node :=
  match tree.nodes[hash]? with
  | some node => .ok node
  | none => .error (.unknownNode hash)

/-- The registered node, which must not be a root. -/
def findMovable (tree : Tree) (hash : NodeHash) : Except TopologyError Node :=
  match tree.find hash with
  | .error refusal => .error refusal
  | .ok node => if node.kind.isRoot then .error .rootNode else .ok node

/-- `target` can take one more child.  A child about to leave does not count
as occupying the slot. -/
def checkTarget (tree : Tree) (target : NodeHash) (leaving : Option NodeHash) :
    Except TopologyError Unit :=
  match tree.find target with
  | .error refusal => .error refusal
  | .ok node =>
    checkHost node.kind target node.name
      (node.children.filter fun child => some child ≠ leaving).length

/-- The slot of a node; a root has none. -/
def slotOf (tree : Tree) (hash : NodeHash) : Except TopologyError Slot :=
  match tree.find hash with
  | .error refusal => .error refusal
  | .ok node =>
    match node.parent with
    | none => .error .rootNode
    | some parent =>
      match (tree.childrenOf parent).findIdx? (· = hash) with
      | some index => .ok ⟨parent, index⟩
      | none => .error (.unknownNode hash)

/-- The node of a source tree, which must be registered and not a root. -/
def findForeign (source : Tree) (hash : NodeHash) : Except TopologyError Node :=
  match source.nodes[hash]? with
  | none => .error (.notInSource hash)
  | some node => if node.kind.isRoot then .error .rootNode else .ok node

/-- The slot of a node of another tree. -/
def foreignSlotOf (other : Tree) (hash : NodeHash) : Except TopologyError Slot :=
  match other.slotOf hash with
  | .error (.unknownNode missing) => .error (.notInSource missing)
  | answer => answer

def updateNode (tree : Tree) (hash : NodeHash) (change : Node → Node) : Tree :=
  { tree with nodes := tree.nodes.modify hash change }

def insertNode (tree : Tree) (node : Node) : Tree :=
  { tree with nodes := tree.nodes.insert node.hash node }

/-- Takes each of the listed nodes out of the registry, first to last. -/
def takeEach (take : NodeHash → Registry → Option (Subtree × Registry)) :
    List NodeHash → Registry → List Subtree × Registry
  | [], nodes => ([], nodes)
  | hash :: rest, nodes =>
    match take hash nodes with
    | none => takeEach take rest nodes
    | some (subtree, remaining) =>
      let (subtrees, final) := takeEach take rest remaining
      (subtree :: subtrees, final)

/-- Takes a node and its descendants out of the registry, down to the given
depth. -/
def takeWithin : Nat → NodeHash → Registry → Option (Subtree × Registry)
  | 0, _, _ => none
  | depth + 1, hash, nodes =>
    match nodes[hash]? with
    | none => none
    | some node =>
      let (children, remaining) :=
        takeEach (takeWithin depth) node.children (nodes.erase hash)
      some
        ({ name := node.name
           hash := some node.hash
           weight := node.weight
           kind := node.kind
           children },
         remaining)

/-- Unregisters a node and its descendants without touching the child list of
its parent. -/
def unregister (hash : NodeHash) : Edit Tree Subtree := do
  let tree ← get
  match takeWithin tree.nodes.size hash tree.nodes with
  | none => Edit.refuse (.unknownNode hash)
  | some (subtree, nodes) =>
    set { tree with nodes }
    return subtree

/-- Takes a node and its descendants out of the tree. -/
def detach (hash : NodeHash) : Edit Tree Subtree := do
  let slot ← Edit.require ((← get).slotOf hash)
  modify (·.updateNode slot.parent (·.removeChild slot.index))
  unregister hash

/-- Mints a hash that is free in the tree. -/
def mintHash : Edit Tree NodeHash := do
  let tree ← get
  match tree.minter.mint tree.contains with
  | (.ok hash, minter) =>
    set { tree with minter }
    return hash
  | (.error failure, minter) =>
    set { tree with minter }
    throw (.exhausted (.hashes failure))

/-- Keeps a hash that is scoped to the tree and free; mints one otherwise. -/
def keepOrMint : Option NodeHash → Edit Tree NodeHash
  | none => mintHash
  | some hint => do
    let tree ← get
    if hint.isScopedTo tree.id && !tree.contains hint then return hint
    else mintHash

mutual

/-- Registers a subtree below `parent` without touching its child list, and
returns the hash of the top node. -/
def register (parent : NodeHash) : Subtree → Edit Tree NodeHash
  | ⟨name, hint, weight, kind, children⟩ => do
    let hash ← keepOrMint hint
    modify (·.insertNode
      { name, hash, parent := some parent, children := [], weight, kind })
    let hashes ← registerEach hash children
    modify (·.updateNode hash fun node => { node with children := hashes })
    return hash

/-- Registers subtrees below `parent`, first to last. -/
def registerEach (parent : NodeHash) : List Subtree → Edit Tree (List NodeHash)
  | [] => return []
  | child :: rest => do
    let hash ← register parent child
    let hashes ← registerEach parent rest
    return hash :: hashes

end

/-- Inserts a child among those of a registered node, at `position` or at the end. -/
def insertInto (parent : NodeHash) (position : Option Nat) (child : NodeHash) :
    Edit Tree Unit := do
  let tree ← get
  match tree.nodes[parent]? with
  | none => return
  | some node =>
    match node.insertChild (clampPosition position node.children.length) child with
    | some grown => set (tree.updateNode parent fun _ => grown)
    | none => throw (.exhausted .indices)

/-- Registers a subtree and inserts it among the children of `parent`. -/
def attach (subtree : Subtree) (parent : NodeHash) (position : Option Nat) :
    Edit Tree NodeHash := do
  let hash ← register parent subtree
  insertInto parent position hash
  return hash

/-- Copy of a node that is known to be registered. -/
def copyNode (hash : NodeHash) : Edit Tree Subtree := do
  match (← get).cloneSubtree hash with
  | some subtree => return subtree
  | none => Edit.refuse (.unknownNode hash)

/-- Attaches a node below `target`, at `position` among its children or at the
end.  A resident node is moved, or copied when `copying` is set.  Returns the
hash of the attached node. -/
def add (origin : NodeOrigin) (target : NodeHash) (position : Option Nat)
    (copying : Bool) : Edit Tree NodeHash := do
  match origin with
  | .detached subtree =>
    Edit.require subtree.check
    Edit.require ((← get).checkTarget target none)
    attach subtree target position
  | .resident hash =>
    let _ ← Edit.require ((← get).findMovable hash)
    if copying then
      Edit.require ((← get).checkTarget target none)
      attach (← copyNode hash) target position
    else
      if hash = target ∨ (← get).isAncestor hash target then
        Edit.refuse (.wouldCycle hash)
      Edit.require ((← get).checkTarget target (some hash))
      attach (← detach hash) target position

/-- Puts a registered host between `target` and its parent: the host takes the
slot of `target`, which becomes a child of the host at `position`. -/
def spliceAbove (subtree : Subtree) (target : NodeHash)
    (position : Option Nat) : Edit Tree NodeHash := do
  let slot ← Edit.require ((← get).slotOf target)
  let hash ← register slot.parent subtree
  modify (·.updateNode slot.parent (·.hostChild slot.index hash))
  modify (·.updateNode target fun node => { node with parent := some hash })
  insertInto hash position target
  return hash

/-- Splices a node in between `target` and its parent.  Returns the hash of
the spliced node. -/
def interpose (origin : NodeOrigin) (target : NodeHash) (position : Option Nat)
    (copying : Bool) : Edit Tree NodeHash := do
  let _ ← Edit.require ((← get).slotOf target)
  match origin with
  | .detached subtree =>
    Edit.require subtree.check
    Edit.require
      (checkHost subtree.kind (subtree.hash.getD ⟨"unhashed"⟩) subtree.name
        subtree.children.length)
    spliceAbove subtree target position
  | .resident hash =>
    if hash = target then Edit.refuse (.selfInterpose hash)
    let node ← Edit.require ((← get).findMovable hash)
    Edit.require (checkHost node.kind node.hash node.name node.children.length)
    if copying then
      spliceAbove (← copyNode hash) target position
    else
      if (← get).isAncestor hash target then Edit.refuse (.wouldCycle hash)
      spliceAbove (← detach hash) target position

/-- Moves a node to `position` among its siblings, or to the end. -/
def shift (hash : NodeHash) (position : Option Nat) : Edit Tree Unit := do
  let slot ← Edit.require ((← get).slotOf hash)
  let parent ← Edit.require ((← get).find slot.parent)
  if parent.arity ≠ .many then Edit.refuse (.notComposite hash)
  let target := clampPosition position (parent.children.length - 1)
  modify (·.updateNode slot.parent (·.moveChild slot.index target hash))

/-- Exchanges the slots of two nodes. -/
def swap (first second : NodeHash) : Edit Tree Unit := do
  let firstSlot ← Edit.require ((← get).slotOf first)
  let secondSlot ← Edit.require ((← get).slotOf second)
  if first = second then return
  if (← get).isAncestor first second ∨ (← get).isAncestor second first then
    Edit.refuse (.wouldCycle first)
  if firstSlot.parent = secondSlot.parent then
    modify (·.updateNode firstSlot.parent
      (·.swapChildren firstSlot.index secondSlot.index first second))
  else
    modify (·.updateNode firstSlot.parent
      (·.replaceChild firstSlot.index second))
    modify (·.updateNode secondSlot.parent
      (·.replaceChild secondSlot.index first))
  modify (·.updateNode first fun node =>
    { node with parent := some secondSlot.parent })
  modify (·.updateNode second fun node =>
    { node with parent := some firstSlot.parent })

/-- Takes a node and its descendants out of the tree and hands them back. -/
def remove (hash : NodeHash) : Edit Tree Subtree := detach hash

def rename (hash : NodeHash) (name : String) : Edit Tree Unit := do
  let _ ← Edit.require ((← get).find hash)
  modify (·.updateNode hash fun node => { node with name })

def setWeight (hash : NodeHash) (weight : Float) : Edit Tree Unit := do
  let _ ← Edit.require ((← get).find hash)
  modify (·.updateNode hash fun node => { node with weight })

/-- Changes the kind of a node in place.  The new kind must accept the current
number of children; a Root is neither replaced nor introduced. -/
def replaceKind (hash : NodeHash) (kind : NodeKind) : Edit Tree Unit := do
  let node ← Edit.require ((← get).find hash)
  if node.kind.isRoot ∨ kind.isRoot then Edit.refuse .rootNode
  if !kind.arity.allows node.children.length then
    Edit.refuse (.arityMismatch kind.label node.children.length)
  modify (·.updateNode hash fun node => { node with kind })

/-- The subtree of a node of the source tree: a copy, or the node itself taken
out of that tree. -/
def fetchForeign (hash : NodeHash) (copying : Bool) : Edit TreePair Subtree := do
  if copying then
    match (← get).source.cloneSubtree hash with
    | some subtree => return subtree
    | none => Edit.refuse (.notInSource hash)
  else Edit.onSource (detach hash)

/-- `add` with a node of the source tree. -/
def addForeign (hash : NodeHash) (target : NodeHash) (position : Option Nat)
    (copying : Bool) : Edit TreePair NodeHash := do
  let _ ← Edit.require ((← get).source.findForeign hash)
  Edit.require ((← get).dest.checkTarget target none)
  let subtree ← fetchForeign hash copying
  Edit.onDest (attach subtree target position)

/-- `interpose` with a node of the source tree. -/
def interposeForeign (hash : NodeHash) (target : NodeHash)
    (position : Option Nat) (copying : Bool) : Edit TreePair NodeHash := do
  let _ ← Edit.require ((← get).dest.slotOf target)
  let node ← Edit.require ((← get).source.findForeign hash)
  Edit.require (checkHost node.kind node.hash node.name node.children.length)
  let subtree ← fetchForeign hash copying
  Edit.onDest (spliceAbove subtree target position)

/-- Puts a subtree into a slot whose node was unregistered. -/
def fillSlot (slot : Slot) (subtree : Subtree) : Edit Tree NodeHash := do
  let hash ← register slot.parent subtree
  modify (·.updateNode slot.parent (·.replaceChild slot.index hash))
  return hash

/-- Exchanges `first` of the destination tree with `second` of the source tree.
Both subtrees get hashes of their new trees, which are returned in that
order. -/
def swapForeign (first second : NodeHash) :
    Edit TreePair (NodeHash × NodeHash) := do
  let firstSlot ← Edit.require ((← get).dest.slotOf first)
  let secondSlot ← Edit.require ((← get).source.foreignSlotOf second)
  let firstSubtree ← Edit.onDest (unregister first)
  let secondSubtree ← Edit.onSource (unregister second)
  let secondHere ← Edit.onDest (fillSlot firstSlot secondSubtree)
  let firstThere ← Edit.onSource (fillSlot secondSlot firstSubtree)
  return (firstThere, secondHere)

end Tree

end BehaviorTree
