import BehaviorTree.Json.Record

/-!
# Fields of documents

An object written from fields holds each of them under its key, and is one deeper
than the deepest of them.  A key that an object leaves out may be filled in with a
default.
-/

namespace BehaviorTree

namespace Json

theorem lookup_cons (key other : String) (value : Json)
    (rest : List (String × Json)) :
    List.lookup key ((other, value) :: rest) =
      if key = other then some value else rest.lookup key := by
  rw [List.lookup_cons]
  by_cases same : key = other
  · simp only [same, beq_self_eq_true, ↓reduceIte]
  · rw [beq_eq_false_iff_ne.mpr same, if_neg same]

theorem lookup_insertField (key other : String) (value : Json)
    (fields : List (String × Json)) :
    (insertField key value fields).lookup other =
      if other = key then some value else fields.lookup other := by
  induction fields with
  | nil => rw [insertField, lookup_cons]
  | cons field rest induction =>
      obtain ⟨held, old⟩ := field
      rw [insertField]
      split
      · next same =>
          subst same
          rw [lookup_cons, lookup_cons]
          by_cases found : other = key
          · rw [if_pos found, if_pos found]
          · rw [if_neg found, if_neg found, if_neg found]
      split
      · rw [lookup_cons]
      · next differs _ =>
          rw [lookup_cons, lookup_cons, induction]
          by_cases found : other = key
          · have passes : other ≠ held := fun same => differs (found.symm.trans same)
            rw [if_neg passes, if_pos found, if_pos found]
          · rw [if_neg found, if_neg found]

theorem exists_ofFields (fields : List (String × Json)) :
    ∃ sorted, ofFields fields = .obj sorted ∧
      ∀ key, sorted.lookup key = fields.reverse.lookup key := by
  refine ⟨_, rfl, fun key => ?_⟩
  rw [← List.foldr_reverse]
  induction fields.reverse with
  | nil => rfl
  | cons field rest induction =>
      rw [List.foldr_cons, lookup_insertField, lookup_cons, induction]

/-- The object of the fields, with the defaults of the keys that they leave
out. -/
def fill (defaults fields : List (String × Json)) : List (String × Json) :=
  defaults.foldr
    (fun (key, fallback) filled =>
      if (fields.lookup key).isSome then filled
      else insertField key fallback filled)
    fields

theorem lookup_fill (defaults fields : List (String × Json)) (key : String) :
    (fill defaults fields).lookup key =
      (fields.lookup key).or (defaults.lookup key) := by
  induction defaults with
  | nil => exact Option.or_none.symm
  | cons default rest induction =>
      obtain ⟨other, fallback⟩ := default
      change List.lookup key
        (if (fields.lookup other).isSome then fill rest fields
          else insertField other fallback (fill rest fields)) = _
      rw [lookup_cons]
      by_cases same : key = other
      · subst same
        cases held : fields.lookup key with
        | none =>
            rw [if_neg (by simp), lookup_insertField]
            simp only [↓reduceIte, Option.none_or]
        | some value =>
            rw [Option.isSome_some, if_pos rfl, induction, held]
            rfl
      · rw [if_neg same, ← induction]
        split
        · rfl
        · rw [lookup_insertField, if_neg same]

theorem depthFields_insertField {key : String} (value : Json)
    {fields : List (String × Json)} (absent : fields.lookup key = none) :
    depthFields (insertField key value fields) =
      max value.depth (depthFields fields) := by
  induction fields with
  | nil => rfl
  | cons field rest induction =>
      obtain ⟨other, old⟩ := field
      rw [lookup_cons] at absent
      split at absent
      · cases absent
      · next differs =>
          rw [insertField, if_neg differs]
          split
          · rfl
          · rw [depthFields, depthFields, induction absent, Nat.max_left_comm]

theorem depthFields_insertField_le (key : String) (value : Json)
    (fields : List (String × Json)) :
    depthFields (insertField key value fields) ≤
      max value.depth (depthFields fields) := by
  induction fields with
  | nil => exact Nat.le_refl _
  | cons field rest induction =>
      obtain ⟨other, old⟩ := field
      rw [insertField]
      split
      · rw [depthFields, depthFields]
        omega
      split
      · exact Nat.le_refl _
      · rw [depthFields, depthFields]
        omega

theorem depth_ofFields_le {bound : Nat} {fields : List (String × Json)}
    (within : ∀ field ∈ fields, field.2.depth ≤ bound) :
    (ofFields fields).depth ≤ bound + 1 := by
  have sorted : ∀ start : List (String × Json), depthFields start ≤ bound →
      depthFields (fields.foldl
        (fun sorted (key, value) => insertField key value sorted) start) ≤ bound := by
    induction fields with
    | nil => exact fun _ startWithin => startWithin
    | cons field rest induction =>
        intro start startWithin
        obtain ⟨key, value⟩ := field
        refine induction (fun other later => within other (List.mem_cons_of_mem _ later))
          _ (Nat.le_trans (depthFields_insertField_le key value start) ?_)
        exact Nat.max_le.mpr ⟨within _ List.mem_cons_self, startWithin⟩
  rw [ofFields, depth, Nat.add_comm]
  exact Nat.succ_le_succ (sorted [] (Nat.zero_le _))

/-- Defaults that hold no container do not make an object deeper. -/
theorem depthFields_fill {defaults : List (String × Json)}
    (distinct : (defaults.map Prod.fst).Nodup)
    (flat : ∀ field ∈ defaults, field.2.depth = 0) (fields : List (String × Json)) :
    depthFields (fill defaults fields) = depthFields fields := by
  induction defaults with
  | nil => rfl
  | cons default rest induction =>
      obtain ⟨key, fallback⟩ := default
      rw [List.map_cons, List.nodup_cons] at distinct
      have others := induction distinct.2 fun field later =>
        flat field (List.mem_cons_of_mem _ later)
      change depthFields
        (if (fields.lookup key).isSome then fill rest fields
          else insertField key fallback (fill rest fields)) = _
      split
      · exact others
      · next missing =>
          rw [Option.not_isSome_iff_eq_none] at missing
          have unfilled : rest.lookup key = none := by
            rw [List.lookup_eq_none_iff]
            intro field isField
            refine bne_iff_ne.mpr fun same => distinct.1 ?_
            exact List.mem_map.mpr ⟨field, isField, same.symm⟩
          rw [depthFields_insertField, others, flat _ List.mem_cons_self, Nat.zero_max]
          rw [lookup_fill, missing, unfilled]
          rfl

theorem depthEach_map_str (texts : List String) : depthEach (texts.map .str) = 0 := by
  induction texts with
  | nil => rfl
  | cons text rest induction => rw [List.map_cons, depthEach, induction]; rfl

variable {α : Type}

theorem asOption_ofOption {encode : α → Json} {decode : Json → Option α}
    (inverse : ∀ value, decode (encode value) = some value)
    (present : ∀ value, encode value ≠ .null) (optional : Option α) :
    (ofOption encode optional).asOption decode = some optional := by
  cases optional with
  | none => rfl
  | some value =>
      rw [ofOption, asOption]
      · rw [inverse]
        rfl
      · exact present value

theorem asBelow_ofNat {bound value : Nat} (below : value < bound) :
    (ofNat value).asBelow bound = some value := by
  rw [ofNat, asBelow, if_pos ⟨Int.natCast_nonneg value, by exact_mod_cast below⟩]
  rfl

@[simp] theorem asUInt64_ofNat (value : UInt64) :
    (ofNat value.toNat).asUInt64 = some value := by
  rw [asUInt64, asBelow_ofNat value.toNat_lt]
  exact congrArg some (UInt64.ofNat_toNat)

@[simp] theorem asUInt32_ofNat (value : UInt32) :
    (ofNat value.toNat).asUInt32 = some value := by
  rw [asUInt32, asBelow_ofNat value.toNat_lt]
  exact congrArg some (UInt32.ofNat_toNat)

theorem asArray_map {encode : α → Json} {decode : Json → Option α}
    {items : List α}
    (inverse : ∀ item ∈ items, decode (encode item) = some item) :
    asArray decode (.arr (items.map encode)) = some items := by
  rw [asArray]
  induction items with
  | nil => rfl
  | cons first rest induction =>
      have rests := induction fun item later =>
        inverse item (List.mem_cons_of_mem _ later)
      rw [List.map_cons, List.mapM_cons, inverse first List.mem_cons_self, rests]
      rfl

end Json

namespace Record

variable {α : Type} {record : Record} {key : String} {value : Json}

theorem required_eq (held : record.field? key = some value)
    (decode : Json → Option α) : record.required key decode = decode value := by
  rw [required, held]
  rfl

theorem withDefault_eq (held : record.field? key = some value) (fallback : α)
    (decode : Json → Option α) :
    record.withDefault key fallback decode = decode value := by
  rw [withDefault, held]

theorem nullable_eq (held : record.field? key = some value)
    (decode : Json → Option α) :
    record.nullable key decode = value.asOption decode := by
  unfold nullable
  rw [held]

-- A second record may hold the default of a key that the first one leaves out, or
-- hold under the key what decodes to the same.
variable {other : Record} {decode : Json → Option α}

theorem required_congr {change : Json → Json}
    (holds : other.field? key = (record.field? key).map change)
    (same : ∀ value, decode (change value) = decode value) :
    other.required key decode = record.required key decode := by
  rw [required, required, holds]
  cases record.field? key with
  | none => rfl
  | some value => exact same value

theorem withDefault_filled (change : Json → Json) {fallback : α} {default : Json}
    (holds : other.field? key = (record.field? key).map change ∨
      record.field? key = none ∧ other.field? key = some default)
    (same : ∀ value, record.field? key = some value →
      decode (change value) = decode value)
    (reads : decode default = some fallback) :
    other.withDefault key fallback decode =
      record.withDefault key fallback decode := by
  rw [withDefault, withDefault]
  rcases holds with kept | ⟨absent, filled⟩
  · rw [kept]
    cases held : record.field? key with
    | none => rfl
    | some value => exact same value held
  · rw [absent, filled]
    exact reads

end Record

end BehaviorTree
