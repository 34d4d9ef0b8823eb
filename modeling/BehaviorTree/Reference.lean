import BehaviorTree.NodeHash

/-!
# References to nodes and trees

A `NodeRef` addresses a node across trees; a `TreeSelector` is how a caller
names a tree, by id or by name.
-/

namespace BehaviorTree

/-- A node of a tree of the forest.  References are ordered by tree, then by
hash. -/
structure NodeRef where
  tree : TreeId
  hash : NodeHash
deriving DecidableEq, Inhabited

namespace NodeRef

instance : Ord NodeRef :=
  ⟨compareLex (compareOn NodeRef.tree) (compareOn NodeRef.hash)⟩

instance : Std.TransOrd NodeRef :=
  inferInstanceAs
    (Std.TransCmp (compareLex (compareOn NodeRef.tree) (compareOn NodeRef.hash)))

end NodeRef

/-- Names a tree by its id, or by the lowest id among the trees of that name. -/
inductive TreeSelector where
  | byId (id : TreeId)
  | byName (name : String)
deriving DecidableEq, Inhabited

namespace TreeSelector

def text : TreeSelector → String
  | byId id => "#" ++ id.text
  | byName name => "'" ++ name ++ "'"

instance : ToString TreeSelector := ⟨text⟩

end TreeSelector

end BehaviorTree
