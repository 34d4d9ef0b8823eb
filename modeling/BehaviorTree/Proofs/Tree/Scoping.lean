import BehaviorTree.Proofs.Grove
import BehaviorTree.Proofs.NodeHash

/-!
# Hashes of a tree

Every hash under which a tree registers a node has the tree's own scope.  Hashes
come in by minting, which uses the scope of the minter, and as the suggestions
of a subtree, which are kept only if they have the right scope already.  So the
scope survives every edit of a tree and every exchange between two trees,
however the edit ends and whatever the subtrees suggest.
-/

namespace BehaviorTree

namespace Tree

/-- The tree has the id, mints in its scope, and registers every node under its
own hash, which has that scope. -/
structure ScopedTo (id : TreeId) (tree : Tree) : Prop where
  own : tree.id = id
  minting : tree.minter.scope = id
  keyed : ∀ {hash : NodeHash} {node : Node},
    tree.nodes[hash]? = some node → node.hash = hash
  keys : ∀ {hash : NodeHash}, tree.contains hash = true →
    hash.isScopedTo id = true

namespace ScopedTo

variable {id : TreeId} {tree : Tree}

theorem build (id : TreeId) (name : String) (hashing : HashConfig) :
    (Tree.build id name hashing).ScopedTo id where
  own := rfl
  minting := rfl
  keyed := (WellFormed.build id name hashing).keyed
  keys := by
    intro hash contained
    let root := (Tree.build id name hashing).root
    have inserted : (Tree.build id name hashing).contains hash =
        (compare root hash == .eq || (∅ : Registry).contains hash) :=
      Std.ExtTreeMap.contains_insert
    rw [inserted, Std.ExtTreeMap.contains_empty, Bool.or_false, beq_iff_eq,
      Std.LawfulEqCmp.compare_eq_iff_eq] at contained
    exact contained ▸ NodeHash.isScopedTo_ofToken _ id

theorem isScopedTo_of_registered (scopedTo : tree.ScopedTo id)
    {hash : NodeHash} {node : Node}
    (registered : tree.nodes[hash]? = some node) :
    hash.isScopedTo id = true :=
  scopedTo.keys (by rw [contains_eq_isSome, registered]; rfl)

theorem insertNode (scopedTo : tree.ScopedTo id) {node : Node}
    (fits : node.hash.isScopedTo id = true) :
    (tree.insertNode node).ScopedTo id where
  own := scopedTo.own
  minting := scopedTo.minting
  keyed := by
    intro hash found registered
    rw [nodes_insertNode] at registered
    split_ifs at registered with same
    · rw [← Option.some.inj registered, same]
    · exact scopedTo.keyed registered
  keys := by
    intro hash contained
    rw [contains_eq_isSome, nodes_insertNode] at contained
    split_ifs at contained with same
    · exact same ▸ fits
    · exact scopedTo.keys (by rwa [contains_eq_isSome])

theorem updateNode (scopedTo : tree.ScopedTo id) (hash : NodeHash)
    {change : Node → Node} (same : ∀ node, (change node).hash = node.hash) :
    (tree.updateNode hash change).ScopedTo id where
  own := scopedTo.own
  minting := scopedTo.minting
  keyed := by
    intro other found registered
    rw [nodes_updateNode] at registered
    split_ifs at registered with here
    · obtain ⟨node, nodeFound, rfl⟩ := Option.map_eq_some_iff.mp registered
      rw [same, scopedTo.keyed nodeFound]
    · exact scopedTo.keyed registered
  keys := by
    intro other contained
    apply scopedTo.keys
    rw [contains_eq_isSome, nodes_updateNode] at contained
    rw [contains_eq_isSome]
    split_ifs at contained with here
    · simpa using contained
    · exact contained

theorem thin (scopedTo : tree.ScopedTo id) {nodes : Registry}
    (fewer : ∀ {hash : NodeHash} {node : Node}, nodes[hash]? = some node →
      tree.nodes[hash]? = some node) :
    ScopedTo id { tree with nodes } where
  own := scopedTo.own
  minting := scopedTo.minting
  keyed registered := scopedTo.keyed (fewer registered)
  keys := by
    intro hash contained
    rw [contains_eq_isSome] at contained
    obtain ⟨node, registered⟩ := Option.isSome_iff_exists.mp contained
    exact scopedTo.isScopedTo_of_registered (fewer registered)

theorem describe (scopedTo : tree.ScopedTo id) (name : String)
    (agentKind : Option String) : ScopedTo id { tree with name, agentKind } where
  own := scopedTo.own
  minting := scopedTo.minting
  keyed := scopedTo.keyed
  keys := scopedTo.keys

theorem withMinter (scopedTo : tree.ScopedTo id) {minter : HashMinter}
    (same : minter.scope = tree.minter.scope) :
    ScopedTo id { tree with minter } :=
  { scopedTo with minting := same.trans scopedTo.minting }

end ScopedTo

/-- Edits of a tree with the given id keep its hashes in scope. -/
abbrev KeepsScope {β : Type} (id : TreeId) (post : β → Prop)
    (edit : Edit Tree β) : Prop :=
  Edit.Keeps (ScopedTo id) post edit

variable {id : TreeId}

theorem mintHash_keeps :
    KeepsScope id (·.isScopedTo id = true) mintHash := by
  unfold mintHash
  refine Edit.Keeps.get.bind fun tree scopedTo => ?_
  have stays := HashMinter.scope_mint tree.contains tree.minter
  cases minted : tree.minter.mint tree.contains with
  | mk answer minter =>
      rw [minted] at stays
      cases answer with
      | error failure =>
          exact (Edit.Keeps.set (scopedTo.withMinter stays)).andThen
            fun _ => .throw _
      | ok hash =>
          have fits := HashMinter.isScopedTo_of_mint minted
          rw [scopedTo.minting] at fits
          exact (Edit.Keeps.set (scopedTo.withMinter stays)).andThen
            fun _ => .pure fits

theorem keepOrMint_keeps (hint : Option NodeHash) :
    KeepsScope id (·.isScopedTo id = true) (keepOrMint hint) := by
  cases hint with
  | none => exact mintHash_keeps
  | some hint =>
      unfold keepOrMint
      refine Edit.Keeps.get.bind fun tree scopedTo => ?_
      by_cases kept : (hint.isScopedTo tree.id && !tree.contains hint) = true
      · rw [if_pos kept]
        rw [Bool.and_eq_true_iff, scopedTo.own] at kept
        exact .pure kept.1
      · rw [if_neg kept]
        exact mintHash_keeps

theorem updateNode_keeps (hash : NodeHash) {change : Node → Node}
    (same : ∀ node, (change node).hash = node.hash) :
    KeepsScope id (fun _ => True) (modify (·.updateNode hash change)) :=
  .modify fun _ scopedTo => scopedTo.updateNode hash same

mutual

theorem register_keeps (parent : NodeHash) (subtree : Subtree) :
    KeepsScope id (·.isScopedTo id = true) (register parent subtree) := by
  match subtree with
  | ⟨name, hint, weight, kind, children⟩ =>
      rw [register]
      refine (keepOrMint_keeps hint).bind fun hash fits => ?_
      refine (Edit.Keeps.modify
        fun _ scopedTo => scopedTo.insertNode fits).andThen fun _ => ?_
      refine (registerEach_keeps hash children).andThen fun hashes => ?_
      exact .andThen (updateNode_keeps hash fun _ => rfl) fun _ => .pure fits

theorem registerEach_keeps (parent : NodeHash) (subtrees : List Subtree) :
    KeepsScope id (fun _ => True) (registerEach parent subtrees) := by
  match subtrees with
  | [] => exact .pure trivial
  | child :: rest =>
      rw [registerEach]
      refine (register_keeps parent child).andThen fun hash => ?_
      exact (registerEach_keeps parent rest).andThen fun _ => .pure trivial

end

theorem insertInto_keeps (parent : NodeHash) (position : Option Nat)
    (child : NodeHash) :
    KeepsScope id (fun _ => True) (insertInto parent position child) := by
  intro tree scopedTo
  cases registered : tree.nodes[parent]? with
  | none =>
      unfold insertInto
      rw [Edit.get_bind, registered]
      exact ⟨trivial, scopedTo⟩
  | some node =>
      rw [insertInto_eq registered]
      by_cases full : node.kind.overflowsAt
          (clampPosition position node.children.length) = true
      · rw [if_pos full]
        exact scopedTo
      · rw [if_neg full]
        exact ⟨trivial, scopedTo.updateNode parent fun _ => rfl⟩

theorem attach_keeps (subtree : Subtree) (parent : NodeHash)
    (position : Option Nat) :
    KeepsScope id (fun _ => True) (attach subtree parent position) := by
  unfold attach
  refine (register_keeps parent subtree).andThen fun hash => ?_
  exact (insertInto_keeps parent position hash).andThen fun _ => .pure trivial

theorem spliceAbove_keeps (subtree : Subtree) (target : NodeHash)
    (position : Option Nat) :
    KeepsScope id (fun _ => True) (spliceAbove subtree target position) := by
  unfold spliceAbove
  refine Edit.Keeps.get.andThen fun _ => ?_
  refine (Edit.Keeps.require _).andThen fun slot => ?_
  refine (register_keeps slot.parent subtree).andThen fun host => ?_
  refine .andThen (updateNode_keeps slot.parent fun _ => rfl) fun _ => ?_
  refine .andThen (updateNode_keeps target fun _ => rfl) fun _ => ?_
  exact (insertInto_keeps host position target).andThen fun _ => .pure trivial

theorem fillSlot_keeps (slot : Slot) (subtree : Subtree) :
    KeepsScope id (fun _ => True) (fillSlot slot subtree) := by
  unfold fillSlot
  refine (register_keeps slot.parent subtree).andThen fun hash => ?_
  exact .andThen (updateNode_keeps slot.parent fun _ => rfl) fun _ =>
    .pure trivial

/-- Taking nodes out of a registry adds none. -/
theorem registered_of_takeEach {depth : Nat}
    (taken : ∀ {hash : NodeHash} {before after : Registry} {subtree : Subtree},
      takeWithin depth hash before = some (subtree, after) →
      ∀ {other : NodeHash} {node : Node}, after[other]? = some node →
        before[other]? = some node)
    (hashes : List NodeHash) (nodes : Registry) {other : NodeHash} {node : Node}
    (registered : (takeEach (takeWithin depth) hashes nodes).2[other]? =
      some node) :
    nodes[other]? = some node := by
  induction hashes generalizing nodes with
  | nil => exact registered
  | cons hash rest induction =>
      rw [takeEach] at registered
      cases found : takeWithin depth hash nodes with
      | none =>
          rw [found] at registered
          exact induction nodes registered
      | some result =>
          rw [found] at registered
          exact taken found (induction result.2 registered)

theorem registered_of_takeWithin {depth : Nat} {hash : NodeHash}
    {before after : Registry} {subtree : Subtree}
    (taken : takeWithin depth hash before = some (subtree, after))
    {other : NodeHash} {node : Node} (registered : after[other]? = some node) :
    before[other]? = some node := by
  induction depth generalizing hash before after subtree other node with
  | zero => simp [takeWithin] at taken
  | succ depth induction =>
      rw [takeWithin] at taken
      cases found : before[hash]? with
      | none => simp [found] at taken
      | some top =>
          simp only [found, Option.some.injEq, Prod.mk.injEq] at taken
          rw [← taken.2] at registered
          have remaining :=
            registered_of_takeEach induction top.children _ registered
          rw [Std.ExtTreeMap.getElem?_erase] at remaining
          split_ifs at remaining
          exact remaining

theorem unregister_keeps (hash : NodeHash) :
    KeepsScope id (fun _ => True) (unregister hash) := by
  unfold unregister
  refine Edit.Keeps.get.bind fun tree scopedTo => ?_
  cases taken : takeWithin tree.nodes.size hash tree.nodes with
  | none => exact .refuse _
  | some result =>
      refine (Edit.Keeps.set (scopedTo.thin ?_)).andThen fun _ => .pure trivial
      exact registered_of_takeWithin taken

theorem detach_keeps (hash : NodeHash) :
    KeepsScope id (fun _ => True) (detach hash) := by
  unfold detach
  refine Edit.Keeps.get.andThen fun _ => ?_
  refine (Edit.Keeps.require _).andThen fun slot => ?_
  exact .andThen (updateNode_keeps slot.parent fun _ => rfl) fun _ =>
    unregister_keeps hash

theorem copyNode_keeps (hash : NodeHash) :
    KeepsScope id (fun _ => True) (copyNode hash) := by
  unfold copyNode
  refine Edit.Keeps.get.andThen fun tree => ?_
  cases tree.cloneSubtree hash with
  | none => exact .refuse _
  | some subtree => exact .pure trivial

theorem add_keeps (origin : NodeOrigin) (target : NodeHash)
    (position : Option Nat) (copying : Bool) :
    KeepsScope id (fun _ => True) (add origin target position copying) := by
  cases origin with
  | detached subtree =>
      refine (Edit.Keeps.require _).andThen fun _ => ?_
      refine Edit.Keeps.get.andThen fun _ => ?_
      refine (Edit.Keeps.require _).andThen fun _ => ?_
      exact attach_keeps subtree target position
  | resident hash =>
      refine Edit.Keeps.get.andThen fun _ => ?_
      refine (Edit.Keeps.require _).andThen fun _ => ?_
      refine .ite ?_ ?_
      · refine Edit.Keeps.get.andThen fun _ => ?_
        refine (Edit.Keeps.require _).andThen fun _ => ?_
        exact (copyNode_keeps hash).andThen fun subtree =>
          attach_keeps subtree target position
      · refine Edit.Keeps.get.andThen fun _ => .guard ?_
        refine Edit.Keeps.get.andThen fun _ => ?_
        refine (Edit.Keeps.require _).andThen fun _ => ?_
        exact (detach_keeps hash).andThen fun subtree =>
          attach_keeps subtree target position

theorem interpose_keeps (origin : NodeOrigin) (target : NodeHash)
    (position : Option Nat) (copying : Bool) :
    KeepsScope id (fun _ => True)
      (interpose origin target position copying) := by
  unfold interpose
  refine Edit.Keeps.get.andThen fun _ => ?_
  refine (Edit.Keeps.require _).andThen fun _ => ?_
  cases origin with
  | detached subtree =>
      refine (Edit.Keeps.require _).andThen fun _ => ?_
      refine (Edit.Keeps.require _).andThen fun _ => ?_
      exact spliceAbove_keeps subtree target position
  | resident hash =>
      refine .guard (Edit.Keeps.get.andThen fun _ => ?_)
      refine (Edit.Keeps.require _).andThen fun node => ?_
      refine (Edit.Keeps.require _).andThen fun _ => .ite ?_ ?_
      · exact (copyNode_keeps hash).andThen fun subtree =>
          spliceAbove_keeps subtree target position
      · refine Edit.Keeps.get.andThen fun _ => .guard ?_
        exact (detach_keeps hash).andThen fun subtree =>
          spliceAbove_keeps subtree target position

theorem shift_keeps (hash : NodeHash) (position : Option Nat) :
    KeepsScope id (fun _ => True) (shift hash position) := by
  unfold shift
  refine Edit.Keeps.get.andThen fun _ => ?_
  refine (Edit.Keeps.require _).andThen fun slot => ?_
  refine Edit.Keeps.get.andThen fun _ => ?_
  refine (Edit.Keeps.require _).andThen fun parent => .guard ?_
  exact updateNode_keeps slot.parent fun _ => rfl

theorem swap_keeps (first second : NodeHash) :
    KeepsScope id (fun _ => True) (swap first second) := by
  have reparented (firstSlot secondSlot : Slot) :
      KeepsScope id (fun _ => True) (do
        modify (·.updateNode first fun node =>
          { node with parent := some secondSlot.parent })
        modify (·.updateNode second fun node =>
          { node with parent := some firstSlot.parent })) :=
    .andThen (updateNode_keeps first fun _ => rfl) fun _ =>
      updateNode_keeps second fun _ => rfl
  unfold swap
  refine Edit.Keeps.get.andThen fun _ => ?_
  refine (Edit.Keeps.require _).andThen fun firstSlot => ?_
  refine Edit.Keeps.get.andThen fun _ => ?_
  refine (Edit.Keeps.require _).andThen fun secondSlot => ?_
  refine .ite (.pure trivial) ?_
  refine Edit.Keeps.get.andThen fun _ => ?_
  refine Edit.Keeps.get.andThen fun _ => .guard (.ite ?_ ?_)
  · exact .andThen (updateNode_keeps firstSlot.parent fun _ => rfl) fun _ =>
      reparented firstSlot secondSlot
  · refine .andThen (updateNode_keeps firstSlot.parent fun _ => rfl) fun _ => ?_
    exact .andThen (updateNode_keeps secondSlot.parent fun _ => rfl) fun _ =>
      reparented firstSlot secondSlot

theorem checked_update_keeps {β : Type} (check : Tree → Except TopologyError β)
    (hash : NodeHash) {change : Node → Node}
    (same : ∀ node, (change node).hash = node.hash) :
    KeepsScope id (fun _ => True) (do
      let _ ← Edit.require (check (← get))
      modify (·.updateNode hash change)) := by
  refine Edit.Keeps.get.andThen fun _ => ?_
  exact (Edit.Keeps.require _).andThen fun _ => updateNode_keeps hash same

theorem replaceKind_keeps (hash : NodeHash) (kind : NodeKind) :
    KeepsScope id (fun _ => True) (replaceKind hash kind) := by
  unfold replaceKind
  refine Edit.Keeps.get.andThen fun _ => ?_
  refine (Edit.Keeps.require _).andThen fun node => .guard (.guard ?_)
  exact updateNode_keeps hash fun _ => rfl

end Tree

theorem TreeEdit.run_keeps (id : TreeId) (edit : TreeEdit) :
    Edit.Keeps (Tree.ScopedTo id) (fun _ => True) edit.run := by
  cases edit with
  | add origin target position copying =>
      exact (Tree.add_keeps origin target position copying).discard
  | interpose origin target position copying =>
      exact (Tree.interpose_keeps origin target position copying).discard
  | shift hash position => exact Tree.shift_keeps hash position
  | swap first second => exact Tree.swap_keeps first second
  | remove hash => exact (Tree.detach_keeps hash).discard
  | rename hash name =>
      exact Tree.checked_update_keeps (·.find hash) hash fun _ => rfl
  | setWeight hash weight =>
      exact Tree.checked_update_keeps (·.find hash) hash fun _ => rfl
  | replaceKind hash kind => exact Tree.replaceKind_keeps hash kind

namespace TreePair

/-- The hashes of both trees are in the scopes of the two ids. -/
structure ScopedTo (dest source : TreeId) (pair : TreePair) : Prop where
  dest : pair.dest.ScopedTo dest
  source : pair.source.ScopedTo source

variable {dest source : TreeId} {β : Type}

theorem onDest_keeps {post : β → Prop} {edit : Edit Tree β}
    (keeps : Edit.Keeps (Tree.ScopedTo dest) post edit) :
    Edit.Keeps (ScopedTo dest source) post (Edit.onDest edit) :=
  keeps.zoom (fun _ scopedTo => scopedTo.dest)
    fun _ _ scopedTo inner => ⟨inner, scopedTo.source⟩

theorem onSource_keeps {post : β → Prop} {edit : Edit Tree β}
    (keeps : Edit.Keeps (Tree.ScopedTo source) post edit) :
    Edit.Keeps (ScopedTo dest source) post (Edit.onSource edit) :=
  keeps.zoom (fun _ scopedTo => scopedTo.source)
    fun _ _ scopedTo inner => ⟨scopedTo.dest, inner⟩

theorem fetchForeign_keeps (hash : NodeHash) (copying : Bool) :
    Edit.Keeps (ScopedTo dest source) (fun _ => True)
      (Tree.fetchForeign hash copying) := by
  unfold Tree.fetchForeign
  refine .ite (Edit.Keeps.get.andThen fun pair => ?_)
    (onSource_keeps (Tree.detach_keeps hash))
  cases pair.source.cloneSubtree hash with
  | none => exact .refuse _
  | some subtree => exact .pure trivial

theorem addForeign_keeps (hash target : NodeHash) (position : Option Nat)
    (copying : Bool) :
    Edit.Keeps (ScopedTo dest source) (fun _ => True)
      (Tree.addForeign hash target position copying) := by
  refine Edit.Keeps.get.andThen fun _ => ?_
  refine (Edit.Keeps.require _).andThen fun _ => ?_
  refine Edit.Keeps.get.andThen fun _ => ?_
  refine (Edit.Keeps.require _).andThen fun _ => ?_
  exact (fetchForeign_keeps hash copying).andThen fun subtree =>
    onDest_keeps (Tree.attach_keeps subtree target position)

theorem interposeForeign_keeps (hash target : NodeHash) (position : Option Nat)
    (copying : Bool) :
    Edit.Keeps (ScopedTo dest source) (fun _ => True)
      (Tree.interposeForeign hash target position copying) := by
  refine Edit.Keeps.get.andThen fun _ => ?_
  refine (Edit.Keeps.require _).andThen fun _ => ?_
  refine Edit.Keeps.get.andThen fun _ => ?_
  refine (Edit.Keeps.require _).andThen fun node => ?_
  refine (Edit.Keeps.require _).andThen fun _ => ?_
  exact (fetchForeign_keeps hash copying).andThen fun subtree =>
    onDest_keeps (Tree.spliceAbove_keeps subtree target position)

theorem swapForeign_keeps (first second : NodeHash) :
    Edit.Keeps (ScopedTo dest source) (fun _ => True)
      (Tree.swapForeign first second) := by
  refine Edit.Keeps.get.andThen fun _ => ?_
  refine (Edit.Keeps.require _).andThen fun firstSlot => ?_
  refine Edit.Keeps.get.andThen fun _ => ?_
  refine (Edit.Keeps.require _).andThen fun secondSlot => ?_
  refine (onDest_keeps (Tree.unregister_keeps first)).andThen
    fun firstSubtree => ?_
  refine (onSource_keeps (Tree.unregister_keeps second)).andThen
    fun secondSubtree => ?_
  refine (onDest_keeps (Tree.fillSlot_keeps firstSlot secondSubtree)).andThen
    fun _ => ?_
  exact (onSource_keeps (Tree.fillSlot_keeps secondSlot firstSubtree)).andThen
    fun _ => .pure trivial

end TreePair

theorem TransferEdit.run_keeps (dest source : TreeId) (edit : TransferEdit) :
    Edit.Keeps (TreePair.ScopedTo dest source) (fun _ => True) edit.run := by
  cases edit with
  | add hash target position copying =>
      exact (TreePair.addForeign_keeps hash target position copying).discard
  | interpose hash target position copying =>
      exact (TreePair.interposeForeign_keeps hash target position
        copying).discard
  | swap first second =>
      exact (TreePair.swapForeign_keeps first second).discard

end BehaviorTree
