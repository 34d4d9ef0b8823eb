import BehaviorTree.Proofs.Tree.Editing

/-!
# Subtrees in a registry

A subtree stands in a registry if its nodes are registered one by one, linked as
in the subtree.  Cloning its top node then gives it back.  Conversely the nodes
of a clone stand where the clone is put, under whatever hashes they get there.
-/

namespace BehaviorTree

namespace Subtree

mutual

/-- The subtree without its hashes. -/
def unhashed : Subtree → Subtree
  | ⟨name, _, weight, kind, children⟩ =>
    ⟨name, none, weight, kind, unhashedEach children⟩

def unhashedEach : List Subtree → List Subtree
  | [] => []
  | child :: rest => child.unhashed :: unhashedEach rest

end

theorem unhashedEach_eq (children : List Subtree) :
    unhashedEach children = children.map unhashed := by
  induction children with
  | nil => rfl
  | cons child rest induction => rw [unhashedEach, induction, List.map_cons]

mutual

/-- What the nodes suggest for their hashes, parents first. -/
def hints : Subtree → List (Option NodeHash)
  | ⟨_, hash, _, _, children⟩ => hash :: hintsEach children

def hintsEach : List Subtree → List (Option NodeHash)
  | [] => []
  | child :: rest => child.hints ++ hintsEach rest

end

theorem hintsEach_eq (children : List Subtree) :
    hintsEach children = children.flatMap hints := by
  induction children with
  | nil => rfl
  | cons child rest induction => rw [hintsEach, induction, List.flatMap_cons]

mutual

/-- The subtree under other hashes. -/
def relabel (rename : NodeHash → NodeHash) : Subtree → Subtree
  | ⟨name, hash, weight, kind, children⟩ =>
    ⟨name, hash.map rename, weight, kind, relabelEach rename children⟩

def relabelEach (rename : NodeHash → NodeHash) : List Subtree → List Subtree
  | [] => []
  | child :: rest => child.relabel rename :: relabelEach rename rest

end

theorem relabelEach_eq (rename : NodeHash → NodeHash)
    (children : List Subtree) :
    relabelEach rename children = children.map (relabel rename) := by
  induction children with
  | nil => rfl
  | cons child rest induction => rw [relabelEach, induction, List.map_cons]

theorem hash_relabel (rename : NodeHash → NodeHash) (subtree : Subtree) :
    (subtree.relabel rename).hash = subtree.hash.map rename := by
  cases subtree
  rfl

mutual

theorem unhashed_relabel (rename : NodeHash → NodeHash) (subtree : Subtree) :
    (subtree.relabel rename).unhashed = subtree.unhashed := by
  match subtree with
  | ⟨name, hash, weight, kind, children⟩ =>
      rw [relabel, unhashed, unhashed, unhashedEach_relabel]

theorem unhashedEach_relabel (rename : NodeHash → NodeHash)
    (children : List Subtree) :
    unhashedEach (relabelEach rename children) = unhashedEach children := by
  match children with
  | [] => rfl
  | child :: rest =>
      rw [relabelEach, unhashedEach, unhashedEach, unhashed_relabel,
        unhashedEach_relabel]

end

mutual

theorem hints_relabel (rename : NodeHash → NodeHash) (subtree : Subtree) :
    (subtree.relabel rename).hints = subtree.hints.map (Option.map rename) := by
  match subtree with
  | ⟨name, hash, weight, kind, children⟩ =>
      rw [relabel, hints, hints, hintsEach_relabel, List.map_cons]

theorem hintsEach_relabel (rename : NodeHash → NodeHash)
    (children : List Subtree) :
    hintsEach (relabelEach rename children) =
      (hintsEach children).map (Option.map rename) := by
  match children with
  | [] => rfl
  | child :: rest =>
      rw [relabelEach, hintsEach, hintsEach, hints_relabel, hintsEach_relabel,
        List.map_append]

end

mutual

theorem eq_of_hints (left right : Subtree) {more others : List (Option NodeHash)}
    (same : left.unhashed = right.unhashed)
    (hinted : left.hints ++ more = right.hints ++ others) :
    left = right ∧ more = others := by
  match left, right with
  | ⟨_, hash, _, _, children⟩, ⟨_, _, _, _, _⟩ =>
      rw [unhashed, unhashed] at same
      obtain ⟨rfl, _, rfl, rfl, below⟩ := Subtree.mk.inj same
      obtain ⟨rfl, rest⟩ := List.cons.inj hinted
      obtain ⟨rfl, rfl⟩ := eq_of_hintsEach _ _ below rest
      exact ⟨rfl, rfl⟩

theorem eq_of_hintsEach (left right : List Subtree)
    {more others : List (Option NodeHash)}
    (same : unhashedEach left = unhashedEach right)
    (hinted : hintsEach left ++ more = hintsEach right ++ others) :
    left = right ∧ more = others := by
  match left, right with
  | [], [] => exact ⟨rfl, hinted⟩
  | [], _ :: _ => cases same
  | _ :: _, [] => cases same
  | child :: rest, other :: remaining =>
      rw [unhashedEach, unhashedEach] at same
      rw [hintsEach, hintsEach, List.append_assoc, List.append_assoc] at hinted
      obtain ⟨here, below⟩ := List.cons.inj same
      obtain ⟨rfl, rest⟩ := eq_of_hints child other here hinted
      obtain ⟨rfl, rfl⟩ := eq_of_hintsEach _ _ below rest
      exact ⟨rfl, rfl⟩

end

theorem exists_map_some {hints : List (Option NodeHash)}
    (present : ∀ hint ∈ hints, ∃ hash, hint = some hash) :
    ∃ hashes : List NodeHash, hints = hashes.map some := by
  induction hints with
  | nil => exact ⟨[], rfl⟩
  | cons hint rest induction =>
      obtain ⟨hash, rfl⟩ := present hint List.mem_cons_self
      obtain ⟨hashes, rfl⟩ := induction fun other member =>
        present other (List.mem_cons_of_mem _ member)
      exact ⟨hash :: hashes, rfl⟩

/-- A list without repetitions can be mapped to any other of its length by a
function that leaves everything else alone. -/
theorem exists_map_eq {hashes others : List NodeHash} (distinct : hashes.Nodup)
    (length : hashes.length = others.length) :
    ∃ rename : NodeHash → NodeHash, hashes.map rename = others ∧
      ∀ other, other ∉ hashes → rename other = other := by
  induction hashes generalizing others with
  | nil =>
      cases others with
      | nil => exact ⟨id, rfl, fun _ _ => rfl⟩
      | cons _ _ => cases length
  | cons hash rest induction =>
      cases others with
      | nil => cases length
      | cons target remaining =>
          obtain ⟨fresh, distinct⟩ := List.nodup_cons.mp distinct
          obtain ⟨rename, mapped, elsewhere⟩ :=
            induction distinct (Nat.succ.inj length)
          refine ⟨Function.update rename hash target, ?_, ?_⟩
          · rw [List.map_cons, Function.update_self, ← mapped]
            refine congrArg _ (List.map_congr_left fun other member => ?_)
            rw [Function.update_of_ne]
            rintro rfl
            exact fresh member
          · intro other notListed
            rw [List.mem_cons, not_or] at notListed
            obtain ⟨different, notBelow⟩ := notListed
            rw [Function.update_of_ne different, elsewhere other notBelow]

theorem exists_relabel {subtree placed : Subtree}
    (same : placed.unhashed = subtree.unhashed) {olds hashes : List NodeHash}
    (hinted : subtree.hints = olds.map some) (distinct : olds.Nodup)
    (placedHinted : placed.hints = hashes.map some)
    (length : olds.length = hashes.length) :
    ∃ rename : NodeHash → NodeHash, olds.map rename = hashes ∧
      (∀ other, other ∉ olds → rename other = other) ∧
      placed = subtree.relabel rename := by
  obtain ⟨rename, mapped, elsewhere⟩ := exists_map_eq distinct length
  refine ⟨rename, mapped, elsewhere, ?_⟩
  have relabelled : placed.hints ++ [] = (subtree.relabel rename).hints ++ [] := by
    rw [hints_relabel, hinted, placedHinted, ← mapped, List.map_map, List.map_map]
    rfl
  exact (eq_of_hints _ _ (same.trans (unhashed_relabel rename subtree).symm)
    relabelled).1

end Subtree

namespace Node

/-- The node under another hash, below another parent. -/
def relabel (node : Node) (rename : NodeHash → NodeHash)
    (parent : Option NodeHash) : Node :=
  { node with
    hash := rename node.hash
    parent
    children := node.children.map rename }

end Node

namespace Tree

/-- The subtree stands in the registry below `parent`, in nodes that `before`
does not have. -/
inductive Stands (before tree : Tree) : NodeHash → Subtree → Prop where
  | mk {parent here : NodeHash} {name : String} {weight : Float}
      {kind : NodeKind} {children : List Subtree} {hashes : List NodeHash} :
      before.nodes[here]? = none →
      tree.nodes[here]? = some
        { name, hash := here, parent := some parent, children := hashes, weight
          kind } →
      children.map Subtree.hash = hashes.map some →
      (∀ child ∈ children, Stands before tree here child) →
      Stands before tree parent ⟨name, some here, weight, kind, children⟩

theorem mem_hints_of_child {name : String} {hash : Option NodeHash}
    {weight : Float} {kind : NodeKind} {children : List Subtree}
    {child : Subtree} (member : child ∈ children) {hint : Option NodeHash}
    (listed : hint ∈ child.hints) :
    hint ∈ Subtree.hints ⟨name, hash, weight, kind, children⟩ := by
  rw [Subtree.hints, Subtree.hintsEach_eq]
  exact List.mem_cons_of_mem _ (List.mem_flatMap.mpr ⟨child, member, listed⟩)

theorem Stands.mono {before tree older later : Tree} {parent : NodeHash}
    {subtree : Subtree} (stands : before.Stands tree parent subtree)
    (absent : ∀ {hash : NodeHash}, some hash ∈ subtree.hints →
      before.nodes[hash]? = none → older.nodes[hash]? = none)
    (kept : ∀ {hash : NodeHash} {node : Node}, some hash ∈ subtree.hints →
      before.nodes[hash]? = none → tree.nodes[hash]? = some node →
      later.nodes[hash]? = some node) :
    older.Stands later parent subtree := by
  induction stands with
  | mk free registered listed _ induction =>
      refine .mk (absent List.mem_cons_self free)
        (kept List.mem_cons_self free registered) listed fun child member => ?_
      exact induction child member
        (fun isHint => absent (mem_hints_of_child member isHint))
        (fun isHint => kept (mem_hints_of_child member isHint))

/-- All nodes of a standing subtree lie at or below its top. -/
theorem Stands.within {before tree : Tree} {parent : NodeHash}
    {subtree : Subtree} (stands : before.Stands tree parent subtree)
    {top hash : NodeHash} (isTop : subtree.hash = some top)
    (member : some hash ∈ subtree.hints) : tree.Within top hash := by
  induction stands generalizing top with
  | @mk parent here name weight kind children hashes free registered listed below
      induction =>
      obtain rfl : here = top := Option.some.inj isTop
      rcases List.mem_cons.mp member with isHere | isBelow
      · exact Option.some.inj isHere ▸ .top
      · rw [Subtree.hintsEach_eq] at isBelow
        obtain ⟨child, childMember, isHint⟩ := List.mem_flatMap.mp isBelow
        have childStands := below child childMember
        have within := @induction child childMember
        cases childStands with
        | mk _ childRegistered =>
            exact (Within.child (parentOf_eq childRegistered) rfl).trans
              (within rfl isHint)

theorem map_of_listed {clone : NodeHash → Option Subtree}
    {children : List Subtree} {hashes : List NodeHash}
    (listed : children.map Subtree.hash = hashes.map some)
    (cloned : ∀ child ∈ children, ∀ {hash : NodeHash}, child.hash = some hash →
      clone hash = some child) :
    hashes.map clone = children.map some := by
  induction children generalizing hashes with
  | nil =>
      cases hashes with
      | nil => rfl
      | cons hash rest => cases listed
  | cons child others induction =>
      cases hashes with
      | nil => cases listed
      | cons hash rest =>
          obtain ⟨here, below⟩ := List.cons.inj listed
          rw [List.map_cons, List.map_cons, cloned child List.mem_cons_self here]
          exact congrArg _ (induction below fun other member =>
            cloned other (List.mem_cons_of_mem _ member))

/-- Cloning the top of a standing subtree gives the subtree. -/
theorem Stands.cloneWithin_eq {before tree : Tree} {parent : NodeHash}
    {subtree : Subtree} (stands : before.Stands tree parent subtree)
    (wellFormed : tree.WellFormed) {hash : NodeHash} {depth level : Nat}
    (isTop : subtree.hash = some hash)
    (reached : tree.climb level hash = some tree.root)
    (deepEnough : tree.nodes.size ≤ level + depth) :
    tree.cloneWithin depth hash = some subtree := by
  induction stands generalizing hash depth level with
  | @mk parent here name weight kind children hashes free registered listed below
      induction =>
      obtain rfl : here = hash := Option.some.inj isTop
      cases depth with
      | zero =>
          have := wellFormed.climb_lt_size registered reached
          omega
      | succ depth =>
          have each : hashes.map (tree.cloneWithin depth) = children.map some := by
            apply map_of_listed listed
            intro child member other isChild
            have isListed : some other ∈ hashes.map some := by
              rw [← listed, ← isChild]
              exact List.mem_map_of_mem member
            have otherListed : other ∈ hashes :=
              (List.mem_map_of_injective fun _ _ => Option.some.inj).mp isListed
            have above := (wellFormed.mem_children_iff registered).mp otherListed
            have climbed : tree.climb (level + 1) other = some tree.root := by
              rw [climb, above, Option.bind_some, reached]
            exact induction child member isChild climbed (by omega)
          have cloned : hashes.filterMap (tree.cloneWithin depth) = children := by
            rw [← Function.id_comp (tree.cloneWithin depth), ← List.filterMap_map,
              each, List.filterMap_map]
            exact List.filterMap_some
          rw [cloneWithin, registered]
          simp only [cloned]

theorem Stands.cloneSubtree_eq {before tree : Tree} {parent : NodeHash}
    {subtree : Subtree} (stands : before.Stands tree parent subtree)
    (wellFormed : tree.WellFormed) {hash : NodeHash}
    (isTop : subtree.hash = some hash) :
    tree.cloneSubtree hash = some subtree := by
  have stood := stands
  cases stands with
  | mk _ registered =>
      obtain rfl := Option.some.inj isTop
      obtain ⟨level, reached⟩ := (wellFormed.rooted registered).exists_climb
      exact stood.cloneWithin_eq wellFormed isTop reached (Nat.le_add_left _ _)

/-- A clone copies a registered node and the clones of its children. -/
theorem node_of_cloneWithin {tree : Tree} {depth : Nat} {hash : NodeHash}
    {subtree : Subtree}
    (cloned : tree.cloneWithin (depth + 1) hash = some subtree) :
    ∃ node, tree.nodes[hash]? = some node ∧
      subtree =
        { name := node.name
          hash := some node.hash
          weight := node.weight
          kind := node.kind
          children := node.children.filterMap (tree.cloneWithin depth) } := by
  rw [cloneWithin] at cloned
  cases registered : tree.nodes[hash]? with
  | none =>
      rw [registered] at cloned
      cases cloned
  | some node =>
      rw [registered] at cloned
      cases cloned
      exact ⟨node, rfl, rfl⟩

namespace WellFormed

variable {tree : Tree} (wellFormed : tree.WellFormed)
include wellFormed

/-- The nodes of a clone suggest the hashes of the nodes that were cloned. -/
theorem within_of_hints {depth : Nat} {hash : NodeHash} {subtree : Subtree}
    (cloned : tree.cloneWithin depth hash = some subtree) :
    ∀ hint ∈ subtree.hints, ∃ other, hint = some other ∧ tree.Within hash other ∧
      ∃ node, tree.nodes[other]? = some node := by
  induction depth generalizing hash subtree with
  | zero => cases cloned
  | succ depth induction =>
      obtain ⟨node, registered, rfl⟩ := node_of_cloneWithin cloned
      intro hint member
      rcases List.mem_cons.mp member with rfl | member
      · exact ⟨hash, by rw [wellFormed.keyed registered], .top, node, registered⟩
      · rw [Subtree.hintsEach_eq] at member
        obtain ⟨child, childMember, member⟩ := List.mem_flatMap.mp member
        obtain ⟨top, topListed, topCloned⟩ := List.mem_filterMap.mp childMember
        obtain ⟨other, same, within, found⟩ := induction topCloned hint member
        have above := (wellFormed.mem_children_iff registered).mp topListed
        exact ⟨other, same, (Within.child above rfl).trans within, found⟩

theorem nodup_hints {depth : Nat} {hash : NodeHash} {subtree : Subtree}
    (cloned : tree.cloneWithin depth hash = some subtree) :
    subtree.hints.Nodup := by
  induction depth generalizing hash subtree with
  | zero => cases cloned
  | succ depth induction =>
      obtain ⟨node, registered, rfl⟩ := node_of_cloneWithin cloned
      have above {child : NodeHash} (listed : child ∈ node.children) :=
        (wellFormed.mem_children_iff registered).mp listed
      rw [Subtree.hints, Subtree.hintsEach_eq, List.nodup_cons,
        List.nodup_flatMap]
      refine ⟨?_, ?_, ?_⟩
      · intro member
        obtain ⟨child, childMember, member⟩ := List.mem_flatMap.mp member
        obtain ⟨top, topListed, topCloned⟩ := List.mem_filterMap.mp childMember
        obtain ⟨other, same, within, _⟩ :=
          wellFormed.within_of_hints topCloned _ member
        obtain rfl : hash = other :=
          (wellFormed.keyed registered).symm.trans (Option.some.inj same)
        exact wellFormed.not_within_child (above topListed) within
      · intro child childMember
        obtain ⟨top, _, topCloned⟩ := List.mem_filterMap.mp childMember
        exact induction topCloned
      · rw [List.pairwise_filterMap]
        apply (wellFormed.children_nodup registered).imp_of_mem
        intro first second firstListed secondListed different firstClone
          firstCloned secondClone secondCloned
        apply List.disjoint_iff_ne.mpr
        rintro hint inFirst _ inSecond rfl
        obtain ⟨other, same, belowFirst, _⟩ :=
          wellFormed.within_of_hints firstCloned _ inFirst
        obtain ⟨_, sameAgain, belowSecond, _⟩ :=
          wellFormed.within_of_hints secondCloned _ inSecond
        cases same.symm.trans sameAgain
        exact different (wellFormed.siblings_apart (above firstListed)
          (above secondListed) belowFirst belowSecond)

/-- The children of a node are cloned one by one. -/
theorem cloned_children {depth level : Nat} {hash : NodeHash} {node : Node}
    (registered : tree.nodes[hash]? = some node)
    (reached : tree.climb level hash = some tree.root)
    (deepEnough : tree.nodes.size ≤ level + (depth + 1)) :
    ∀ child ∈ node.children, ∃ subtree,
      tree.cloneWithin depth child = some subtree ∧ subtree.hash = some child ∧
      tree.climb (level + 1) child = some tree.root := by
  intro child member
  have above := (wellFormed.mem_children_iff registered).mp member
  obtain ⟨childNode, childRegistered, _⟩ := registered_of_parentOf above
  have childReached : tree.climb (level + 1) child = some tree.root := by
    rw [climb, above, Option.bind_some, reached]
  have deep : tree.nodes.size ≤ level + 1 + depth := by omega
  obtain ⟨subtree, cloned, _⟩ := wellFormed.cloneWithin_spec childRegistered
    (wellFormed.ne_root_of_parentOf above) childReached deep
  refine ⟨subtree, cloned, ?_, childReached⟩
  cases depth with
  | zero => cases cloned
  | succ depth =>
      rw [cloneWithin, childRegistered, Option.some.injEq] at cloned
      rw [← cloned, wellFormed.keyed childRegistered]

/-- The nodes of a clone that stands somewhere are those that were cloned, under
their new hashes. -/
theorem relabelled {before after : Tree} {rename : NodeHash → NodeHash}
    {depth level : Nat} {top parent : NodeHash} {subtree : Subtree}
    (cloned : tree.cloneWithin depth top = some subtree)
    (reached : tree.climb level top = some tree.root)
    (deepEnough : tree.nodes.size ≤ level + depth)
    (stands : before.Stands after parent (subtree.relabel rename))
    {other : NodeHash} {node : Node} (within : tree.Within top other)
    (registered : tree.nodes[other]? = some node) :
    before.nodes[rename other]? = none ∧
      after.nodes[rename other]? = some (node.relabel rename
        (if other = top then some parent else node.parent.map rename)) := by
  induction depth generalizing level top parent subtree with
  | zero => cases cloned
  | succ depth induction =>
      obtain ⟨topNode, topRegistered⟩ :=
        wellFormed.registered_of_within registered within
      have children :=
        wellFormed.cloned_children topRegistered reached deepEnough
      rw [cloneWithin, topRegistered, Option.some.injEq] at cloned
      subst cloned
      rw [Subtree.relabel, wellFormed.keyed topRegistered, Option.map_some] at stands
      cases stands with
      | @mk _ _ _ _ _ _ hashes free now listed below =>
          have renamed : hashes = topNode.children.map rename := by
            apply List.map_injective_iff.mpr fun _ _ => Option.some.inj
            rw [← listed, Subtree.relabelEach_eq, List.map_map, List.map_map,
              List.map_filterMap, ← List.filterMap_eq_map]
            refine List.filterMap_congr fun child member => ?_
            obtain ⟨childTree, childCloned, isChild, _⟩ := children child member
            simp [childCloned, Subtree.hash_relabel, isChild]
          rcases wellFormed.within_cases topRegistered within with
            rfl | ⟨child, member, belowChild⟩
          · rw [topRegistered, Option.some.injEq] at registered
            subst registered
            refine ⟨free, ?_⟩
            rw [now, if_pos rfl, Node.relabel, wellFormed.keyed topRegistered,
              renamed]
          · obtain ⟨childTree, childCloned, isChild, childReached⟩ :=
              children child member
            have deep : tree.nodes.size ≤ level + 1 + depth := by omega
            have listedClone : childTree ∈
                topNode.children.filterMap (tree.cloneWithin depth) :=
              List.mem_filterMap.mpr ⟨child, member, childCloned⟩
            have childStands := below (childTree.relabel rename) (by
              rw [Subtree.relabelEach_eq]
              exact List.mem_map_of_mem listedClone)
            obtain ⟨absent, found⟩ :=
              induction childCloned childReached deep childStands belowChild
            refine ⟨absent, found.trans ?_⟩
            have above := (wellFormed.mem_children_iff topRegistered).mp member
            have notTop : other ≠ top := by
              rintro rfl
              exact wellFormed.not_within_child above belowChild
            rw [if_neg notTop]
            by_cases isChildItself : other = child
            · rw [if_pos isChildItself]
              rw [← isChildItself, parentOf_eq registered] at above
              rw [above, Option.map_some]
            · rw [if_neg isChildItself]

/-- A clone depends on the nodes at and below its top only, and not on the parent
that they name. -/
theorem cloneWithin_congr {after : Tree} (laterWellFormed : after.WellFormed)
    {top : NodeHash} {node : Node} (registered : tree.nodes[top]? = some node)
    (agree : ∀ {other : NodeHash} {old : Node}, tree.Within top other →
      tree.nodes[other]? = some old →
      ∃ parent, after.nodes[other]? = some { old with parent })
    {depth level : Nat} (reached : tree.climb level top = some tree.root)
    (deepEnough : tree.nodes.size ≤ level + depth)
    {laterDepth laterLevel : Nat}
    (laterReached : after.climb laterLevel top = some after.root)
    (laterDeepEnough : after.nodes.size ≤ laterLevel + laterDepth) :
    after.cloneWithin laterDepth top = tree.cloneWithin depth top := by
  induction depth generalizing top node level laterDepth laterLevel with
  | zero =>
      have := wellFormed.climb_lt_size registered reached
      omega
  | succ depth induction =>
      obtain ⟨parent, laterRegistered⟩ := agree .top registered
      cases laterDepth with
      | zero =>
          have := laterWellFormed.climb_lt_size laterRegistered laterReached
          omega
      | succ laterDepth =>
          have below := wellFormed.cloned_children registered reached deepEnough
          have laterBelow := laterWellFormed.cloned_children laterRegistered
            laterReached laterDeepEnough
          have same : node.children.filterMap (after.cloneWithin laterDepth) =
              node.children.filterMap (tree.cloneWithin depth) := by
            refine List.filterMap_congr fun child member => ?_
            have above := (wellFormed.mem_children_iff registered).mp member
            obtain ⟨childNode, childRegistered, _⟩ := registered_of_parentOf above
            obtain ⟨_, _, _, childReached⟩ := below child member
            obtain ⟨_, _, _, laterChildReached⟩ := laterBelow child member
            refine induction childRegistered (fun within =>
              agree ((Within.child above rfl).trans within)) childReached ?_
              laterChildReached ?_ <;> omega
          rw [cloneWithin, cloneWithin, registered, laterRegistered]
          simp only [same]

theorem cloneSubtree_congr {after : Tree} (laterWellFormed : after.WellFormed)
    {top : NodeHash} {node : Node} (registered : tree.nodes[top]? = some node)
    (agree : ∀ {other : NodeHash} {old : Node}, tree.Within top other →
      tree.nodes[other]? = some old →
      ∃ parent, after.nodes[other]? = some { old with parent }) :
    after.cloneSubtree top = tree.cloneSubtree top := by
  obtain ⟨level, reached⟩ := (wellFormed.rooted registered).exists_climb
  obtain ⟨parent, laterRegistered⟩ := agree .top registered
  obtain ⟨laterLevel, laterReached⟩ :=
    (laterWellFormed.rooted laterRegistered).exists_climb
  exact wellFormed.cloneWithin_congr laterWellFormed registered agree reached
    (Nat.le_add_left _ _) laterReached (Nat.le_add_left _ _)

end WellFormed

end Tree

end BehaviorTree
