import BehaviorTree.Proofs.Json
import BehaviorTree.Subtree.Json

/-!
# Subtrees and their documents

A subtree with finite weights is read back from its document, unless it has too many
levels for one.  Keys that a document leaves out count as their defaults, at every
node of the subtree.
-/

namespace BehaviorTree

theorem NodeHash.ofJson_toJson (hash : NodeHash) : ofJson hash.toJson = some hash := rfl

namespace TreeSelector

theorem ofJson_toJson (selector : TreeSelector) :
    ofJson selector.toJson = some selector := by
  cases selector with
  | byId id =>
      rw [toJson, ofJson, TreeId.ofJson, TreeId.toJson, Json.asUInt64_ofNat]
      rfl
  | byName name => rfl

theorem toJson_ne_null (selector : TreeSelector) : selector.toJson ≠ .null := by
  cases selector <;> nofun

end TreeSelector

namespace NodeKind

open Json

theorem fieldNames_tag (kind : NodeKind) :
    fieldNames kind.tag = some (kind.configFields.map Prod.fst) := by
  cases kind <;> rfl

theorem ofTagged_tag {record : Record} {kind : NodeKind}
    (held : ∀ key, record.field? key =
      (("type", .str kind.tag) :: kind.configFields).reverse.lookup key) :
    ofTagged kind.tag record = some kind := by
  cases kind with
  | parallel spec =>
      have primary : record.field? "primary_child" =
          some (.ofOption (fun index => .ofNat index.toNat) spec.primaryChild) :=
        held _
      have successes : record.field? "req_successes" =
          some (.ofOption (fun count => .ofNat count.toNat) spec.requiredSuccesses) :=
        held _
      have failures : record.field? "req_failures" =
          some (.ofOption (fun count => .ofNat count.toNat) spec.requiredFailures) :=
        held _
      have fallback : record.field? "default_success" =
          some (.bool spec.defaultSuccess) := held _
      rw [tag, ofTagged, parallelOfRecord, Record.withDefault_eq primary,
        Record.withDefault_eq successes, Record.withDefault_eq failures,
        Record.withDefault_eq fallback, asOption_ofOption asUInt64_ofNat nofun,
        asOption_ofOption asUInt32_ofNat nofun, asOption_ofOption asUInt32_ofNat nofun]
      rfl
  | repeater repeats =>
      have counted : record.field? "repeats" = some (.ofNat repeats.toNat) := held _
      rw [tag, ofTagged, Record.required_eq counted, asUInt32_ofNat]
      rfl
  | limiter limit =>
      have counted : record.field? "limit" = some (.ofNat limit.toNat) := held _
      rw [tag, ofTagged, Record.required_eq counted, asUInt32_ofNat]
      rfl
  | allocator resources =>
      have listed : record.field? "resources" =
          some (.arr (resources.map .str)) := held _
      have strings : asArray asString (.arr (resources.map .str)) = some resources :=
        asArray_map fun _ _ => rfl
      rw [tag, ofTagged, Record.required_eq listed, strings]
      rfl
  | transition target =>
      have selected : record.field? "target" =
          some (.ofOption TreeSelector.toJson target) := held _
      rw [tag, ofTagged, Record.nullable_eq selected, asOption_ofOption
        TreeSelector.ofJson_toJson TreeSelector.toJson_ne_null]
      rfl
  | echoLeaf message succeed =>
      have text : record.field? "message" = some (.str message) := held _
      have flag : record.field? "succeed" = some (.bool succeed) := held _
      rw [tag, ofTagged, Record.required_eq text, Record.required_eq flag]
      rfl
  | verifier text | condition text =>
      have named : record.field? "predicate" = some (.str text) := held _
      rw [tag, ofTagged, Record.required_eq named]
      rfl
  | echoDecorator text =>
      have named : record.field? "message" = some (.str text) := held _
      rw [tag, ofTagged, Record.required_eq named]
      rfl
  | command text =>
      have named : record.field? "action" = some (.str text) := held _
      rw [tag, ofTagged, Record.required_eq named]
      rfl
  | _ => rfl

theorem ofJson_toJson (kind : NodeKind) : ofJson kind.toJson = some kind := by
  obtain ⟨fields, written, held⟩ :=
    exists_ofFields (("type", .str kind.tag) :: kind.configFields)
  have tagged : fields.lookup "type" = some (.str kind.tag) := by
    rw [held]
    cases kind <;> simp [configFields, lookup_cons]
  rw [toJson, written, ofJson, asVariant, tagged]
  simp only [Option.bind_some, asString, fieldNames_tag, Option.bind_eq_bind]
  exact ofTagged_tag held

/-- The defaults of the fields beside a tag. -/
def defaults : String → List (String × Json)
  | "parallel" =>
    [("primary_child", .null), ("req_successes", .null), ("req_failures", .null),
     ("default_success", .bool true)]
  | "transition" => [("target", .null)]
  | _ => []

/-- The document of a kind with the defaults of its tag written out. -/
def spellOut : Json → Json
  | .obj fields =>
    match (fields.lookup "type").bind asString with
    | some tag => .obj (fill (defaults tag) fields)
    | none => .obj fields
  | value => value

theorem defaults_of_ne {tag : String} (notParallel : tag ≠ "parallel")
    (notTransition : tag ≠ "transition") : defaults tag = [] := by
  unfold defaults
  split
  · exact absurd rfl notParallel
  · exact absurd rfl notTransition
  · rfl

theorem ofTagged_fill (tag : String) (fields : List (String × Json)) :
    ofTagged tag (.keyed (fill (defaults tag) fields)) =
      ofTagged tag (.keyed fields) := by
  have filled (key : String) :
      (Record.keyed (fill (defaults tag) fields)).field? key =
        ((Record.keyed fields).field? key).or ((defaults tag).lookup key) :=
    lookup_fill _ _ key
  by_cases isParallel : tag = "parallel"
  · subst isParallel
    have default {α : Type} (key : String) (value : Json) (fallback : α)
        (decode : Json → Option α)
        (isDefault : (defaults "parallel").lookup key = some value)
        (reads : decode value = some fallback) :
        (Record.keyed (fill (defaults "parallel") fields)).withDefault key fallback
          decode = (Record.keyed fields).withDefault key fallback decode := by
      refine Record.withDefault_filled id ?_ (fun _ _ => rfl) reads
      rw [filled, isDefault]
      cases (Record.keyed fields).field? key with
      | none => exact .inr ⟨rfl, rfl⟩
      | some held => exact .inl rfl
    rw [ofTagged, ofTagged, parallelOfRecord, parallelOfRecord,
      default "primary_child" .null none _ rfl rfl,
      default "req_successes" .null none _ rfl rfl,
      default "req_failures" .null none _ rfl rfl,
      default "default_success" (.bool true) true _ rfl rfl]
  by_cases isTransition : tag = "transition"
  · subst isTransition
    have target := filled "target"
    rw [ofTagged, ofTagged]
    cases held : (Record.keyed fields).field? "target" with
    | none =>
        rw [held] at target
        rw [Record.nullable_eq target]
        unfold Record.nullable
        rw [held]
        rfl
    | some value =>
        rw [held] at target
        rw [Record.nullable_eq target, Record.nullable_eq held]
  · rw [defaults_of_ne isParallel isTransition]
    rfl

theorem depth_toJson_le (kind : NodeKind) : kind.toJson.depth ≤ 2 := by
  have plain (optional : Option UInt64) :
      (ofOption (fun index => .ofNat index.toNat) optional).depth = 0 := by
    cases optional <;> rfl
  have counted (optional : Option UInt32) :
      (ofOption (fun count => .ofNat count.toNat) optional).depth = 0 := by
    cases optional <;> rfl
  have selected (target : Option TreeSelector) :
      (ofOption TreeSelector.toJson target).depth ≤ 1 := by
    rcases target with _ | target
    · exact Nat.zero_le _
    · cases target <;> exact Nat.le_refl _
  refine depth_ofFields_le fun field isField => ?_
  rcases List.mem_cons.mp isField with rfl | isField
  · exact Nat.zero_le _
  cases kind with
  | parallel spec =>
      simp only [configFields, List.mem_cons, List.not_mem_nil, or_false] at isField
      rcases isField with rfl | rfl | rfl | rfl <;> simp [plain, counted, depth]
  | allocator resources =>
      obtain rfl := List.mem_singleton.mp isField
      simp [depth, depthEach_map_str]
  | transition target =>
      obtain rfl := List.mem_singleton.mp isField
      exact selected target
  | echoLeaf message succeed =>
      simp only [configFields, List.mem_cons, List.not_mem_nil, or_false] at isField
      rcases isField with rfl | rfl <;> exact Nat.zero_le _
  | repeater _ | limiter _ | verifier _ | echoDecorator _ | condition _ | command _ =>
      obtain rfl := List.mem_singleton.mp isField
      exact Nat.zero_le _
  | _ => cases isField

theorem depth_spellOut (value : Json) : (spellOut value).depth = value.depth := by
  cases value with
  | obj fields =>
      rw [spellOut]
      split
      · next tag _ =>
          rw [depth, depth, depthFields_fill]
          · unfold defaults
            split <;> decide
          · unfold defaults
            split <;> simp [depth]
      · rfl
  | _ => rfl

theorem ofJson_spellOut (value : Json) : ofJson (spellOut value) = ofJson value := by
  cases value with
  | obj fields =>
      rw [spellOut]
      cases tagged : (fields.lookup "type").bind asString with
      | none => rfl
      | some tag =>
          have kept : ((fill (defaults tag) fields).lookup "type").bind asString =
              some tag := by
            obtain ⟨value, held, isTag⟩ := Option.bind_eq_some_iff.mp tagged
            rw [lookup_fill, held]
            exact isTag
          simp only [ofJson, asVariant, tagged, kept, Option.bind_eq_bind,
            Option.bind_some]
          cases fieldNames tag with
          | none => rfl
          | some names => exact ofTagged_fill tag fields
  | _ => rfl

end NodeKind

namespace Subtree

open Json

/-- The names of the fields, in the order of their declaration. -/
def fieldNames : List String := ["name", "hash", "weight", "kind", "children"]

/-- The defaults of the fields that a document may leave out. -/
def defaults : List (String × Json) :=
  [("hash", .null), ("weight", .float 1.0), ("children", .arr [])]

mutual

/-- The document of a subtree with the defaults of every node written out. -/
def spellOut : Json → Json
  | .obj fields => .obj (fill defaults (spellFields fields))
  | .arr items => .arr (spellItems fieldNames items)
  | value => value

def spellFields : List (String × Json) → List (String × Json)
  | [] => []
  | (key, value) :: rest => (key, spellField key value) :: spellFields rest

def spellItems : List String → List Json → List Json
  | name :: names, value :: rest => spellField name value :: spellItems names rest
  | _, items => items

/-- What stands under a key. -/
def spellField (key : String) : Json → Json
  | .arr items =>
    if key = "children" then .arr (spellEach items) else .arr items
  | .obj fields =>
    if key = "kind" then NodeKind.spellOut (.obj fields) else .obj fields
  | value => value

def spellEach : List Json → List Json
  | [] => []
  | value :: rest => spellOut value :: spellEach rest

end

mutual

/-- All weights are finite. -/
def Finite : Subtree → Prop
  | ⟨_, _, weight, _, children⟩ => weight.isFinite = true ∧ FiniteEach children

def FiniteEach : List Subtree → Prop
  | [] => True
  | child :: rest => child.Finite ∧ FiniteEach rest

end

mutual

/-- How many nodes stand below each other at most. -/
def levels : Subtree → Nat
  | ⟨_, _, _, _, children⟩ => 1 + levelsEach children

def levelsEach : List Subtree → Nat
  | [] => 0
  | child :: rest => max child.levels (levelsEach rest)

end

/-- Reads a subtree from its record, with room for so many containers below it. -/
def ofRecord (room : Nat) (record : Record) : Option Subtree := do
  return {
    name := ← record.required "name" Json.asString
    hash := ← record.withDefault "hash" none (·.asOption NodeHash.ofJson)
    weight := ← record.withDefault "weight" 1.0 Json.asFloat
    kind := ← record.required "kind" fun kind =>
      if room + 1 < kind.depth then none else NodeKind.ofJson kind
    children := ← record.withDefault "children" [] (Json.asArray (ofJsonWithin room)) }

theorem ofJsonWithin_add_two (room : Nat) (value : Json) :
    ofJsonWithin (room + 2) value =
      (value.asRecord fieldNames).bind (ofRecord room) := rfl

theorem asFloat_ofWeight {weight : Float} (finite : weight.isFinite = true) :
    (ofWeight weight).asFloat = some weight := by
  rw [ofWeight, if_pos finite, asFloat]

mutual

/-- A subtree with finite weights is read back from its document if there is room for
two containers a level, and one more. -/
theorem ofJsonWithin_toJson (room : Nat) (subtree : Subtree) (finite : subtree.Finite) :
    ofJsonWithin (2 * room + 1) subtree.toJson =
      if subtree.levels ≤ room then some subtree else none := by
  obtain ⟨name, hash, weight, kind, children⟩ := subtree
  obtain ⟨weightFinite, childrenFinite⟩ := finite
  cases room with
  | zero => rw [if_neg (by rw [levels]; omega)]; rfl
  | succ room =>
  rw [toJson]
  obtain ⟨fields, written, held⟩ := exists_ofFields
    [("name", .str name), ("hash", .ofOption NodeHash.toJson hash),
      ("weight", .ofWeight weight), ("kind", kind.toJson),
      ("children", .arr (toJsonEach children))]
  have named : (Record.keyed fields).field? "name" = some (.str name) := held _
  have hashed : (Record.keyed fields).field? "hash" =
      some (.ofOption NodeHash.toJson hash) := held _
  have weighted : (Record.keyed fields).field? "weight" =
      some (.ofWeight weight) := held _
  have typed : (Record.keyed fields).field? "kind" = some kind.toJson := held _
  have nested : (Record.keyed fields).field? "children" =
      some (.arr (toJsonEach children)) := held _
  have kindFits : ¬ 2 * room + 1 + 1 < kind.toJson.depth := by
    have shallow := kind.depth_toJson_le
    omega
  have more : 2 * (room + 1) + 1 = 2 * room + 1 + 2 := by omega
  have deeper : levels ⟨name, hash, weight, kind, children⟩ ≤ room + 1 ↔
      levelsEach children ≤ room := by
    rw [levels]
    omega
  rw [written, more, ofJsonWithin_add_two, asRecord, Option.bind_some, ofRecord,
    Record.required_eq named, Record.withDefault_eq hashed,
    Record.withDefault_eq weighted, Record.required_eq typed,
    Record.withDefault_eq nested, asString, asFloat_ofWeight weightFinite,
    if_neg kindFits, NodeKind.ofJson_toJson, asArray,
    mapM_toJsonEach room children childrenFinite,
    asOption_ofOption NodeHash.ofJson_toJson nofun]
  by_cases fits : levelsEach children ≤ room
  · rw [if_pos fits, if_pos (deeper.mpr fits)]
    rfl
  · rw [if_neg fits, if_neg (mt deeper.mp fits)]
    rfl

theorem mapM_toJsonEach (room : Nat) (children : List Subtree)
    (finite : FiniteEach children) :
    (toJsonEach children).mapM (ofJsonWithin (2 * room + 1)) =
      if levelsEach children ≤ room then some children else none := by
  cases children with
  | nil => exact (if_pos (Nat.zero_le _)).symm
  | cons child rest =>
      have both : levelsEach (child :: rest) ≤ room ↔
          child.levels ≤ room ∧ levelsEach rest ≤ room := Nat.max_le
      rw [toJsonEach, List.mapM_cons, ofJsonWithin_toJson room child finite.1,
        mapM_toJsonEach room rest finite.2]
      by_cases first : child.levels ≤ room
      · by_cases others : levelsEach rest ≤ room
        · rw [if_pos first, if_pos others, if_pos (both.mpr ⟨first, others⟩)]
          rfl
        · rw [if_pos first, if_neg others, if_neg fun fits => others (both.mp fits).2]
          rfl
      · rw [if_neg first, if_neg fun fits => first (both.mp fits).1]
        rfl

end

theorem lookup_spellFields (fields : List (String × Json)) (key : String) :
    (spellFields fields).lookup key = (fields.lookup key).map (spellField key) := by
  induction fields with
  | nil => rfl
  | cons field rest induction =>
      obtain ⟨other, value⟩ := field
      rw [spellFields, lookup_cons, lookup_cons, induction]
      split
      · next same => rw [same, Option.map_some]
      · rfl

theorem length_spellItems (names : List String) (items : List Json) :
    (spellItems names items).length = items.length := by
  induction names generalizing items with
  | nil => rw [spellItems]; nofun
  | cons name names induction =>
      cases items with
      | nil => rfl
      | cons value rest =>
          rw [spellItems, List.length_cons, List.length_cons, induction]

theorem lookup_spellItems (names : List String) (items : List Json) (key : String) :
    (names.zip (spellItems names items)).lookup key =
      ((names.zip items).lookup key).map (spellField key) := by
  induction names generalizing items with
  | nil => rfl
  | cons name names induction =>
      cases items with
      | nil => rfl
      | cons value rest =>
          rw [spellItems, List.zip_cons_cons, List.zip_cons_cons, lookup_cons,
            lookup_cons, induction]
          split
          · next same => rw [same, Option.map_some]
          · rfl

theorem spellField_of_ne {key : String} (notKind : key ≠ "kind")
    (notChildren : key ≠ "children") (value : Json) : spellField key value = value := by
  cases value with
  | arr items => rw [spellField, if_neg notChildren]
  | obj fields => rw [spellField, if_neg notKind]
  | _ => rfl

theorem spellField_kind (value : Json) :
    spellField "kind" value = NodeKind.spellOut value := by
  cases value <;> rfl

theorem spellEach_eq (items : List Json) : spellEach items = items.map spellOut := by
  induction items with
  | nil => rfl
  | cons first rest induction => rw [spellEach, induction, List.map_cons]

/-- A document with every default written out holds what the given one holds, and
the default under each key that it leaves out. -/
theorem field?_spellOut (fields : List (String × Json)) (key : String) :
    (spellOut (.obj fields)).field? key =
      ((fields.lookup key).map (spellField key)).or (defaults.lookup key) := by
  rw [spellOut, field?, lookup_fill, lookup_spellFields]

/-- The record of a document with every default written out. -/
def Spelled (record spelled : Record) : Prop :=
  ∀ key, spelled.field? key = (record.field? key).map (spellField key) ∨
    record.field? key = none ∧ spelled.field? key = defaults.lookup key

theorem ofRecord_spelled {room : Nat} {record spelled : Record}
    (agree : Spelled record spelled)
    (sameChildren : ∀ value, asArray (ofJsonWithin room) (spellField "children" value) =
      asArray (ofJsonWithin room) value) :
    ofRecord room spelled = ofRecord room record := by
  have required {key : String}
      (listed : defaults.lookup key = none) :
      spelled.field? key = (record.field? key).map (spellField key) := by
    rcases agree key with kept | ⟨absent, filled⟩
    · exact kept
    · rw [absent, filled, listed]
      rfl
  have name : spelled.required "name" asString = record.required "name" asString := by
    apply Record.required_congr (required rfl)
    intro value
    rw [spellField_of_ne (by decide) (by decide)]
  have hash : spelled.withDefault "hash" none (·.asOption NodeHash.ofJson) =
      record.withDefault "hash" none (·.asOption NodeHash.ofJson) := by
    refine Record.withDefault_filled _ (agree "hash") ?_ rfl
    intro value _
    rw [spellField_of_ne (by decide) (by decide)]
  have weight : spelled.withDefault "weight" 1.0 asFloat =
      record.withDefault "weight" 1.0 asFloat := by
    refine Record.withDefault_filled _ (agree "weight") ?_ rfl
    intro value _
    rw [spellField_of_ne (by decide) (by decide)]
  have kind : spelled.required "kind" (fun kind =>
        if room + 1 < kind.depth then none else NodeKind.ofJson kind) =
      record.required "kind" fun kind =>
        if room + 1 < kind.depth then none else NodeKind.ofJson kind := by
    apply Record.required_congr (required rfl)
    intro value
    rw [spellField_kind, NodeKind.ofJson_spellOut, NodeKind.depth_spellOut]
  have children : spelled.withDefault "children" [] (asArray (ofJsonWithin room)) =
      record.withDefault "children" [] (asArray (ofJsonWithin room)) :=
    Record.withDefault_filled _ (agree "children") (fun value _ => sameChildren value) rfl
  rw [ofRecord, ofRecord, name, hash, weight, kind, children]

/-- A document is read like the one with the defaults of every node written
out. -/
theorem ofJsonWithin_spellOut :
    ∀ (room : Nat) (value : Json), ofJsonWithin room (spellOut value) =
      ofJsonWithin room value
  | 0, _ => rfl
  | 1, _ => rfl
  | room + 2, value => by
    have children (value : Json) :
        asArray (ofJsonWithin room) (spellField "children" value) =
          asArray (ofJsonWithin room) value := by
      cases value with
      | arr items =>
          have same : ofJsonWithin room ∘ spellOut = ofJsonWithin room :=
            funext (ofJsonWithin_spellOut room)
          rw [spellField, if_pos rfl, spellEach_eq, asArray, asArray, List.mapM_map, same]
      | _ => rfl
    rw [ofJsonWithin_add_two, ofJsonWithin_add_two]
    cases value with
    | obj fields =>
        refine ofRecord_spelled (fun key => ?_) children
        have filled := field?_spellOut fields key
        rw [spellOut, field?] at filled
        rw [Record.field?, Record.field?, filled]
        cases fields.lookup key with
        | none => exact .inr ⟨rfl, rfl⟩
        | some value => exact .inl rfl
    | arr items =>
        rw [spellOut, asRecord, asRecord, length_spellItems]
        split
        · exact ofRecord_spelled
            (fun key => .inl (lookup_spellItems fieldNames items key)) children
        · rfl
    | _ => rfl

/-- Documents are faithful: a subtree with finite weights is read back from its
document if it has at most 63 levels, and not at all if it has more; keys that a
document leaves out count as their defaults. -/
theorem documents_faithful :
    (∀ subtree : Subtree, subtree.Finite →
      ofJson subtree.toJson = if subtree.levels ≤ 63 then some subtree else none) ∧
      ∀ document : Json, ofJson (spellOut document) = ofJson document :=
  ⟨ofJsonWithin_toJson 63, ofJsonWithin_spellOut Json.maxDepth⟩

/-- A watch with a limited strike and a fallback that is chosen by name. -/
def lookout : Subtree :=
  { name := "watch"
    kind := .parallel { primaryChild := some 1, requiredFailures := some 2 }
    children :=
      [{ name := "near", kind := .condition "enemy_near" },
       { name := "hit", hash := some ⟨"k3v0-1"⟩, weight := 2.5, kind := .limiter 3
         children := [{ name := "swing", kind := .command "attack" }] },
       { name := "fallback", kind := .transition (some (.byName "patrol")) },
       { name := "done", weight := 0.125, kind := .transition none }] }

theorem lookout_read_back :
    lookout.Finite ∧ ofJson lookout.toJson = some lookout := by
  have finite : lookout.Finite := by
    simp only [lookout, Finite, FiniteEach]
    decide +kernel
  exact ⟨finite, (documents_faithful.1 lookout finite).trans (if_pos (by decide))⟩

/-- A swing below so many inverters. -/
def tower : Nat → Subtree
  | 0 => { name := "swing", kind := .command "attack" }
  | height + 1 => { name := "not", kind := .inverter, children := [tower height] }

theorem levels_tower (height : Nat) : (tower height).levels = height + 1 := by
  induction height with
  | zero => rfl
  | succ height induction =>
      rw [tower, levels, levelsEach, levelsEach, induction]
      omega

theorem finite_tower (height : Nat) : (tower height).Finite := by
  have finite : (1.0 : Float).isFinite = true := by decide +kernel
  induction height with
  | zero => exact ⟨finite, trivial⟩
  | succ height induction => exact ⟨finite, induction, trivial⟩

theorem tower_refused : (tower 63).Finite ∧ ofJson (tower 63).toJson = none := by
  refine ⟨finite_tower 63, (ofJsonWithin_toJson 63 _ (finite_tower 63)).trans ?_⟩
  rw [levels_tower, if_neg (by decide)]

end Subtree

end BehaviorTree
