import BehaviorTree.Proofs.Forest.History

/-!
# Ids of trees

Ids are handed out in ascending order, past all ids that were chosen.  The
largest id has no successor: once it was given to a tree, ids are handed out a
second time.  Until then a new tree never takes the place of another one.
-/

namespace BehaviorTree

/-- The id that no other id exceeds. -/
def TreeId.largest : TreeId := ⟨0xFFFFFFFFFFFFFFFF⟩

theorem TreeId.value_lt_largest {id : TreeId} (different : id ≠ .largest) :
    id.value < TreeId.largest.value := by
  have apart : id.value ≠ TreeId.largest.value :=
    fun same => different (congrArg TreeId.mk same)
  have bound := id.value.toNat_lt
  rw [UInt64.lt_iff_toNat_lt]
  have toNat_ne : id.value.toNat ≠ TreeId.largest.value.toNat :=
    fun same => apart (UInt64.toNat_inj.mp same)
  have isLargest : TreeId.largest.value.toNat = 2 ^ 64 - 1 := rfl
  omega

namespace TreeIds

/-- The next id exceeds all given ones, unless the largest one was given. -/
def Ahead (ids : TreeIds) (given : List TreeId) : Prop :=
  .largest ∉ given → ∀ id ∈ given, id.value < ids.next

variable {ids : TreeIds} {given : List TreeId}

theorem lt_succ {value : UInt64} (small : value < TreeId.largest.value) :
    value < value + 1 := by
  have isLargest : TreeId.largest.value.toNat = 2 ^ 64 - 1 := rfl
  rw [UInt64.lt_iff_toNat_lt, isLargest] at small
  rw [UInt64.lt_iff_toNat_lt, UInt64.toNat_add]
  have one : (1 : UInt64).toNat = 1 := rfl
  omega

theorem toNat_max (first second : UInt64) :
    (max first second).toNat = max first.toNat second.toNat := by
  change (if first ≤ second then second else first).toNat = _
  split
  · next le => exact (Nat.max_eq_right (UInt64.le_iff_toNat_le.mp le)).symm
  · next notLe =>
      rw [UInt64.le_iff_toNat_le, Nat.not_le] at notLe
      exact (Nat.max_eq_left (Nat.le_of_lt notLe)).symm

theorem Ahead.take (ahead : ids.Ahead given) :
    ids.take.2.Ahead (ids.take.1 :: given) := by
  intro unused id member
  rw [List.mem_cons, not_or] at unused
  obtain ⟨fresh, unused⟩ := unused
  have grows : ids.next < ids.next + 1 :=
    lt_succ (TreeId.value_lt_largest (Ne.symm fresh))
  rcases List.mem_cons.mp member with rfl | member
  · exact grows
  · exact UInt64.lt_trans (ahead unused id member) grows

theorem Ahead.reserve (ahead : ids.Ahead given) (chosen : TreeId) :
    (ids.reserve chosen).Ahead (chosen :: given) := by
  intro unused id member
  rw [List.mem_cons, not_or] at unused
  obtain ⟨fresh, unused⟩ := unused
  have small := TreeId.value_lt_largest (Ne.symm fresh)
  have next : (ids.reserve chosen).next = max ids.next (chosen.value + 1) := by
    rw [TreeIds.reserve, if_neg]
    exact UInt64.ne_of_lt small
  rw [next, UInt64.lt_iff_toNat_lt, toNat_max]
  rcases List.mem_cons.mp member with rfl | member
  · have below := UInt64.lt_iff_toNat_lt.mp (lt_succ small)
    exact Nat.lt_of_lt_of_le below (Nat.le_max_right _ _)
  · have below := UInt64.lt_iff_toNat_lt.mp (ahead unused id member)
    exact Nat.lt_of_lt_of_le below (Nat.le_max_left _ _)

end TreeIds

namespace Woodland

theorem ahead_grow {woodland : Woodland}
    (ahead : woodland.ids.Ahead woodland.given) (seedling : Seedling) :
    (woodland.grow seedling).2.Ahead
      ((woodland.grow seedling).1.id :: woodland.given) := by
  unfold grow
  cases seedling.chosen with
  | none => exact ahead.take
  | some id => exact ahead.reserve id

theorem ahead_step {woodland after : Woodland} {action : Step}
    (ahead : woodland.ids.Ahead woodland.given)
    (stepped : woodland.step action = some after) :
    after.ids.Ahead after.given := by
  have ahead_settle {edit : Edit Forest Unit}
      (settled : woodland.settle edit = some after) :
      after.ids.Ahead after.given := by
    obtain ⟨forest, _, rfl⟩ := Option.map_eq_some_iff.mp settled
    exact ahead
  cases action with
  | build seedling =>
      rw [step, Option.some.injEq] at stepped
      exact stepped ▸ ahead_grow ahead seedling
  | plant seedling =>
      rw [step, Option.some.injEq] at stepped
      exact stepped ▸ ahead_grow ahead seedling
  | create name hashing =>
      cases stepped
      exact ahead.take
  | erase id =>
      cases stepped
      exact ahead
  | describe id name agentKind =>
      rw [step] at stepped
      split at stepped
      · exact Option.some.inj stepped ▸ ahead
      · cases stepped
        exact ahead
  | edit id edit => exact ahead_settle stepped
  | transfer dest source edit => exact ahead_settle stepped
  | across edit => exact ahead_settle stepped

theorem ahead_run {woodland after : Woodland} {steps : List Step}
    (ahead : woodland.ids.Ahead woodland.given)
    (ran : woodland.run steps = some after) : after.ids.Ahead after.given := by
  induction steps generalizing woodland with
  | nil => exact Option.some.inj ran ▸ ahead
  | cons first rest induction =>
      obtain ⟨middle, stepped, ran⟩ := Option.bind_eq_some_iff.mp ran
      exact induction (ahead_step ahead stepped) ran

/-- The next id exceeds every id that was given out or chosen before exactly as
long as the largest id is not among them, and then a tree that is created takes
the place of no other. -/
theorem fresh_ids_of_run {steps : List Step} {woodland : Woodland}
    (ran : run {} steps = some woodland) (name : String) (hashing : HashConfig) :
    let fresh := (Tree.create woodland.ids name hashing).1.id
    let created := woodland.forest.create woodland.ids name hashing
    created.1 = fresh ∧
    ((∀ id ∈ woodland.given, id.value < fresh.value) ↔
      .largest ∉ woodland.given) ∧
    (.largest ∉ woodland.given →
      woodland.forest.get? fresh = none ∧
      created.2.1.get? fresh = some (.build fresh name hashing) ∧
      ∀ id tree, woodland.forest.get? id = some tree →
        created.2.1.get? id = some tree) := by
  intro fresh created
  have ahead : woodland.ids.Ahead woodland.given := by
    apply ahead_run _ ran
    intro _ id member
    cases member
  have absent (unused : .largest ∉ woodland.given) :
      woodland.forest.get? fresh = none := by
    cases registered : woodland.forest.get? fresh with
    | none => rfl
    | some tree =>
        have member := (sound_of_run ran).labelled.listed registered
        exact absurd (ahead unused fresh member) (UInt64.lt_irrefl _)
  have lookup (id : TreeId) : created.2.1.get? id =
      if id = fresh then some (.build fresh name hashing)
      else woodland.forest.get? id :=
    Forest.get?_insert _ _ _
  refine ⟨rfl, ⟨?_, ahead⟩, fun unused => ⟨absent unused, ?_, ?_⟩⟩
  · intro below member
    have bound := fresh.value.toNat_lt
    have exceeds := UInt64.lt_iff_toNat_lt.mp (below .largest member)
    have isLargest : TreeId.largest.value.toNat = 2 ^ 64 - 1 := rfl
    omega
  · rw [lookup, if_pos rfl]
  · intro id tree registered
    rw [lookup, if_neg]
    · exact registered
    · intro same
      rw [same, absent unused] at registered
      cases registered

/-- Close to the end: the next id is the last one that exceeds all others. -/
def lastPlots : List Step :=
  [.plant { name := "chosen", chosen := some ⟨0xFFFFFFFFFFFFFFFD⟩ },
   .create "next" {}]

theorem last_id_of_lastPlots :
    ∃ woodland, run {} lastPlots = some woodland ∧
      .largest ∉ woodland.given ∧
      woodland.given = [⟨0xFFFFFFFFFFFFFFFE⟩, ⟨0xFFFFFFFFFFFFFFFD⟩] ∧
      (woodland.forest.create woodland.ids "last" {}).1 = .largest ∧
      woodland.forest.get? .largest = none := by
  have checked : (run {} lastPlots).any (fun woodland =>
      woodland.given = [⟨0xFFFFFFFFFFFFFFFE⟩, ⟨0xFFFFFFFFFFFFFFFD⟩] &&
        woodland.ids.next = TreeId.largest.value) = true := by
    decide +kernel
  obtain ⟨woodland, ran, found⟩ := (Option.any_eq_true _ _).mp checked
  simp only [Bool.and_eq_true, decide_eq_true_eq] at found
  obtain ⟨given, next⟩ := found
  have unused : .largest ∉ woodland.given := by
    rw [given]
    decide
  obtain ⟨same, _, kept⟩ := fresh_ids_of_run ran "last" {}
  have fresh : (Tree.create woodland.ids "last" {}).1.id = .largest :=
    congrArg TreeId.mk next
  refine ⟨woodland, ran, unused, given, same.trans fresh, ?_⟩
  rw [← fresh]
  exact (kept unused).1

/-- After the largest id was chosen it is handed out again, and the tree that is
created replaces the one that has it. -/
theorem replaced_at_largest :
    ∃ woodland, run {} [.plant { name := "old", chosen := some .largest }] =
        some woodland ∧
      .largest ∈ woodland.given ∧
      (woodland.forest.create woodland.ids "new" {}).1 = .largest ∧
      (woodland.forest.get? .largest).map Tree.name = some "old" ∧
      ((woodland.forest.create woodland.ids "new" {}).2.1.get? .largest).map
        Tree.name = some "new" := by
  have checked :
      (run {} [.plant { name := "old", chosen := some .largest }]).any
        (fun woodland => decide (.largest ∈ woodland.given) &&
          (woodland.forest.create woodland.ids "new" {}).1 = .largest &&
          (woodland.forest.get? .largest).map Tree.name = some "old" &&
          ((woodland.forest.create woodland.ids "new" {}).2.1.get?
            .largest).map Tree.name = some "new") = true := by
    decide +kernel
  obtain ⟨woodland, ran, found⟩ := (Option.any_eq_true _ _).mp checked
  simp only [Bool.and_eq_true, decide_eq_true_eq] at found
  obtain ⟨⟨⟨member, again⟩, old⟩, new⟩ := found
  exact ⟨woodland, ran, member, again, old, new⟩

end Woodland

end BehaviorTree
