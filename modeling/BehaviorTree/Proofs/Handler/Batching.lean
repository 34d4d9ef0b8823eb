import Mathlib.Data.List.Forall2
import BehaviorTree.Proofs.Handler.Drawing
import BehaviorTree.Proofs.Handler.Failing

/-!
# Batches of handlers

A batch is ticked in the order of the agents' ids, and pairs with equal ids keep their
order.  Each pair is ticked as if it were alone, so the order in which a batch comes
does not matter if its ids differ, and pairs that cannot be ticked may as well be left
out.
-/

namespace BehaviorTree

variable {α : Type}

section Ordering

variable {β : Type} {key : β → UInt64}

theorem filter_key_cons {head : β} {tail : List β} :
    (head :: tail).filter (fun item => key item = key head) =
      head :: tail.filter (fun item => key item = key head) :=
  List.filter_cons_of_pos (decide_eq_true rfl)

theorem key_le_of_ordered {head item : β} {tail : List β}
    (ordered : (head :: tail).Pairwise fun earlier later => key earlier ≤ key later)
    (member : item ∈ head :: tail) : key head ≤ key item := by
  rcases List.mem_cons.mp member with rfl | later
  · exact UInt64.le_refl _
  · exact (List.pairwise_cons.mp ordered).1 item later

theorem mem_iff_of_filter_key {first second : List β}
    (same : ∀ id, first.filter (fun item => key item = id) =
      second.filter (fun item => key item = id)) (item : β) :
    item ∈ first ↔ item ∈ second := by
  have listed := congrArg (item ∈ ·) (same (key item))
  simpa using listed

/-- Lists in the order of a key are equal if they agree on the items of each key. -/
theorem eq_of_ordered {first second : List β}
    (firstOrdered : first.Pairwise fun earlier later => key earlier ≤ key later)
    (secondOrdered : second.Pairwise fun earlier later => key earlier ≤ key later)
    (same : ∀ id, first.filter (fun item => key item = id) =
      second.filter (fun item => key item = id)) : first = second := by
  induction first generalizing second with
  | nil =>
      cases second with
      | nil => rfl
      | cons head tail => cases (mem_iff_of_filter_key same _).mpr List.mem_cons_self
  | cons head tail induction =>
      cases second with
      | nil => cases (mem_iff_of_filter_key same _).mp List.mem_cons_self
      | cons other rest =>
          have mem_iff := mem_iff_of_filter_key same
          have equal : key head = key other := UInt64.le_antisymm
            (key_le_of_ordered firstOrdered ((mem_iff other).mpr List.mem_cons_self))
            (key_le_of_ordered secondOrdered ((mem_iff head).mp List.mem_cons_self))
          -- The items with this key begin with the two heads, so these are the same.
          obtain rfl : head = other := by
            have heads := same (key head)
            rw [filter_key_cons, equal, filter_key_cons] at heads
            exact (List.cons.inj heads).1
          have sameTails : ∀ id, tail.filter (fun item => key item = id) =
              rest.filter (fun item => key item = id) := by
            intro id
            have whole := same id
            by_cases isHead : key head = id
            · subst isHead
              rw [filter_key_cons, filter_key_cons] at whole
              exact (List.cons.inj whole).2
            · rwa [List.filter_cons_of_neg (by simpa using isHead),
                List.filter_cons_of_neg (by simpa using isHead)] at whole
          exact congrArg (head :: ·)
            (induction firstOrdered.tail secondOrdered.tail sameTails)

theorem key_le_trans (first second third : β)
    (before : decide (key first ≤ key second) = true)
    (after : decide (key second ≤ key third) = true) :
    decide (key first ≤ key third) = true :=
  decide_eq_true (UInt64.le_trans (of_decide_eq_true before) (of_decide_eq_true after))

theorem key_le_total (first second : β) :
    (decide (key first ≤ key second) || decide (key second ≤ key first)) = true := by
  rw [Bool.or_eq_true, decide_eq_true_iff, decide_eq_true_iff]
  exact UInt64.le_total _ _

theorem pairwise_mergeSort_key (items : List β) :
    (items.mergeSort fun left right => key left ≤ key right).Pairwise
      fun earlier later => key earlier ≤ key later :=
  (List.pairwise_mergeSort key_le_trans key_le_total items).imp of_decide_eq_true

theorem filter_mergeSort_key (items : List β) (id : UInt64) :
    (items.mergeSort fun left right => key left ≤ key right).filter
        (fun item => key item = id) =
      items.filter (fun item => key item = id) := by
  have alike : (items.filter fun item => key item = id).Pairwise
      fun left right => decide (key left ≤ key right) = true := by
    refine List.pairwise_of_forall_mem_list fun left isLeft right isRight => ?_
    have leftKey : key left = id := of_decide_eq_true (List.mem_filter.mp isLeft).2
    have rightKey : key right = id := of_decide_eq_true (List.mem_filter.mp isRight).2
    rw [leftKey, rightKey]
    exact decide_eq_true (UInt64.le_refl id)
  have kept := (List.sublist_mergeSort key_le_trans key_le_total alike
    List.filter_sublist).filter fun item => key item = id
  simp only [List.filter_filter, Bool.and_self] at kept
  exact (kept.eq_of_length ((List.mergeSort_perm items _).filter _).length_eq.symm).symm

end Ordering

/-- What is computed for a list item by item. -/
theorem mapM_eq_some_iff {β γ : Type} {compute : β → Option γ} {items : List β}
    {results : List γ} :
    items.mapM compute = some results ↔
      List.Forall₂ (fun item result => compute item = some result) items results := by
  induction items generalizing results with
  | nil =>
      rw [List.mapM_nil, List.forall₂_nil_left_iff]
      exact Option.some_inj.trans eq_comm
  | cons item rest induction =>
      rw [List.mapM_cons, List.forall₂_cons_left_iff, Option.bind_eq_bind,
        Option.bind_eq_some_iff]
      constructor
      · rintro ⟨result, computed, found⟩
        obtain ⟨later, rests, same⟩ := Option.bind_eq_some_iff.mp found
        cases same
        exact ⟨result, later, computed, induction.mp rests, rfl⟩
      · rintro ⟨result, later, computed, rests, rfl⟩
        exact ⟨result, computed, by rw [induction.mpr rests]; rfl⟩

namespace Behaviors

/-- No behaviour changes the id of an agent. -/
structure KeepsIds [Agent α] (behaviors : Behaviors α) : Prop where
  conditions : ∀ {predicate : String} {condition : ConditionFn α},
    behaviors.conditions[predicate]? = some condition → ∀ agent globals,
    Agent.stableId (condition agent globals).2 = Agent.stableId agent
  commands : ∀ {action : String} {command : CommandFn α},
    behaviors.commands[action]? = some command → ∀ agent globals,
    Agent.stableId (command agent globals).1 = Agent.stableId agent

theorem keepsIds_empty [Agent α] : ({} : Behaviors α).KeepsIds where
  conditions registered := by simp at registered
  commands registered := by simp at registered

theorem KeepsIds.withCommand [Agent α] {behaviors : Behaviors α}
    (keeps : behaviors.KeepsIds) (name : String) {command : CommandFn α}
    (same : ∀ agent globals,
      Agent.stableId (command agent globals).1 = Agent.stableId agent) :
    (behaviors.withCommand name command).KeepsIds where
  conditions := keeps.conditions
  commands {action other} registered := by
    rw [Behaviors.withCommand, Std.ExtTreeMap.getElem?_insert] at registered
    split at registered
    · obtain rfl := Option.some.inj registered
      exact same
    · exact keeps.commands registered

theorem KeepsIds.performs [Agent α] {behaviors : Behaviors α}
    (keeps : behaviors.KeepsIds) {calls : List Call} {before after : α × Globals}
    (performs : behaviors.Performs calls before after) :
    Agent.stableId after.1 = Agent.stableId before.1 :=
  performs.same (fun pair => Agent.stableId pair.1) keeps.conditions keeps.commands

end Behaviors

namespace Handler

section Obstacles

variable {fuel : Nat} {forest : Forest} {pair : Handler α × α}

/-- What becomes of a pair that is ticked alone: an error leaves it as it is, and a
report gives the status, the board to go on with and the agent. -/
inductive Ticked (fuel : Nat) (forest : Forest) (pair : Handler α × α) :
    Except TickError Status × (Handler α × α) → Prop where
  | failed {cause : TickError} :
      tick fuel forest pair.1 pair.2 = some (.error cause) →
      Ticked fuel forest pair (.error cause, pair)
  | reported {report : TickReport α} :
      tick fuel forest pair.1 pair.2 = some (.ok report) →
      Ticked fuel forest pair
        (.ok report.status,
          { pair.1 with blackboard := some report.pass.board }, report.pass.agent)

theorem step_eq_some_iff {outcome : Except TickError Status × (Handler α × α)} :
    step fuel forest pair = some outcome ↔ Ticked fuel forest pair outcome := by
  rw [step, Option.map_eq_some_iff]
  constructor
  · rintro ⟨result, ticked, rfl⟩
    cases result with
    | error cause => exact .failed ticked
    | ok report => exact .reported ticked
  · rintro (ticked | ticked)
    · exact ⟨_, ticked, rfl⟩
    · exact ⟨_, ticked, rfl⟩

/-- Why the handler cannot be ticked. -/
def obstacle (forest : Forest) (handler : Handler α) : Option TickError :=
  match handler.blackboard with
  | none => some .notSetUp
  | some board =>
    if (forest.get? board.tree).isSome then none else some (.treeMissing board.tree)

theorem tick_of_obstacle {cause : TickError}
    (hinders : pair.1.obstacle forest = some cause) (fuel : Nat) :
    tick fuel forest pair.1 pair.2 = some (.error cause) := by
  rw [obstacle] at hinders
  rw [tick]
  cases holds : pair.1.blackboard with
  | none =>
      rw [holds] at hinders
      cases hinders
      rfl
  | some board =>
      rw [holds] at hinders
      cases registered : forest.get? board.tree with
      | none =>
          dsimp only at hinders ⊢
          rw [registered] at hinders ⊢
          cases hinders
          rfl
      | some tree =>
          dsimp only at hinders
          rw [registered] at hinders
          cases hinders

theorem step_of_obstacle {cause : TickError}
    (hinders : pair.1.obstacle forest = some cause) (fuel : Nat) :
    step fuel forest pair = some (.error cause, pair) :=
  step_eq_some_iff.mpr (.failed (tick_of_obstacle hinders fuel))

/-- Nothing else keeps a pair from being ticked. -/
theorem isOk_of_step (ready : pair.1.obstacle forest = none)
    {outcome : Except TickError Status × (Handler α × α)}
    (stepped : step fuel forest pair = some outcome) : outcome.1.isOk = true := by
  obtain ⟨ticked, ran, rfl⟩ := Option.map_eq_some_iff.mp stepped
  cases holds : pair.1.blackboard with
  | none =>
      rw [obstacle, holds] at ready
      cases ready
  | some board =>
      cases registered : forest.get? board.tree with
      | none =>
          rw [obstacle, holds] at ready
          dsimp only at ready
          rw [registered] at ready
          cases ready
      | some tree =>
          rw [tick_of_registered holds registered] at ran
          obtain ⟨_, _, rfl⟩ := Option.map_eq_some_iff.mp ran
          rfl

/-- Without the pairs that cannot be ticked there are the other outcomes. -/
theorem mapM_step_filter (fuel : Nat) (forest : Forest)
    (pairs : List (Handler α × α)) :
    (pairs.filter fun pair => (pair.1.obstacle forest).isNone).mapM
        (step fuel forest) =
      (pairs.mapM (step fuel forest)).map
        (List.filter fun outcome => outcome.1.isOk) := by
  induction pairs with
  | nil => rfl
  | cons pair rest induction =>
      rw [List.mapM_cons]
      cases hindered : pair.1.obstacle forest with
      | some cause =>
          rw [List.filter_cons_of_neg (by rw [hindered]; exact Bool.false_ne_true),
            induction, step_of_obstacle hindered]
          cases rest.mapM (step fuel forest) <;> rfl
      | none =>
          rw [List.filter_cons_of_pos (by rw [hindered]; rfl), List.mapM_cons, induction]
          cases stepped : step fuel forest pair with
          | none => rfl
          | some outcome =>
              have isOk := isOk_of_step hindered stepped
              cases rest.mapM (step fuel forest) with
              | none => rfl
              | some later =>
                  change some (outcome :: _) = some (List.filter _ (outcome :: later))
                  rw [List.filter_cons, if_pos isOk]

end Obstacles

section Queue

variable [Agent α] {batch queue other : List (Handler α × α)}

/-- The id by which a pair is ordered. -/
def idOf (pair : Handler α × α) : UInt64 := Agent.stableId pair.2

/-- The queue is the batch in the order of the ids.  Pairs with equal ids keep their
order. -/
structure Queues (batch queue : List (Handler α × α)) : Prop where
  perm : queue.Perm batch
  ordered : queue.Pairwise fun earlier later => idOf earlier ≤ idOf later
  stable : ∀ id, queue.filter (fun pair => idOf pair = id) =
    batch.filter (fun pair => idOf pair = id)

theorem Queues.unique (queues : Queues batch queue) (again : Queues batch other) :
    other = queue :=
  eq_of_ordered again.ordered queues.ordered fun id =>
    (again.stable id).trans (queues.stable id).symm

theorem Queues.filter (queues : Queues batch queue) (keep : Handler α × α → Bool) :
    Queues (batch.filter keep) (queue.filter keep) where
  perm := queues.perm.filter keep
  ordered := queues.ordered.filter keep
  stable id := by
    rw [List.filter_comm, queues.stable, List.filter_comm]

theorem Queues.eq_of_perm (queues : Queues batch queue)
    (distinct : (batch.map idOf).Nodup) (perm : other.Perm batch)
    (ordered : other.Pairwise fun earlier later => idOf earlier ≤ idOf later) :
    other = queue := by
  refine List.Perm.eq_of_pairwise ?_ ordered queues.ordered
    (perm.trans queues.perm.symm)
  intro first second isFirst isSecond before after
  exact List.inj_on_of_nodup_map distinct (perm.mem_iff.mp isFirst)
    (queues.perm.mem_iff.mp isSecond) (UInt64.le_antisymm before after)

theorem exists_queues (batch : List (Handler α × α)) :
    ∃ queue, Queues batch queue ∧ ∀ fuel forest,
      stepAll fuel forest batch = queue.mapM (step fuel forest) :=
  ⟨batch.mergeSort fun left right => idOf left ≤ idOf right,
    { perm := List.mergeSort_perm _ _
      ordered := pairwise_mergeSort_key batch
      stable := filter_mergeSort_key batch },
    fun _ _ => rfl⟩

theorem Queues.stepAll_eq (queues : Queues batch queue) (fuel : Nat)
    (forest : Forest) : stepAll fuel forest batch = queue.mapM (step fuel forest) := by
  obtain ⟨other, again, same⟩ := exists_queues batch
  rw [same, queues.unique again]

theorem Queues.stepAll_eq_some_iff (queues : Queues batch queue) {fuel : Nat}
    {forest : Forest} {outcomes : List (Except TickError Status × (Handler α × α))} :
    stepAll fuel forest batch = some outcomes ↔
      List.Forall₂ (Ticked fuel forest) queue outcomes := by
  rw [queues.stepAll_eq, mapM_eq_some_iff]
  simp only [step_eq_some_iff]

theorem idOf_of_ticked {fuel : Nat} {forest : Forest} {pair : Handler α × α}
    (keeps : pair.1.behaviors.KeepsIds)
    {outcome : Except TickError Status × (Handler α × α)}
    (ticked : Ticked fuel forest pair outcome) : idOf outcome.2 = idOf pair := by
  cases ticked with
  | failed => rfl
  | reported ran =>
      obtain ⟨board, holds⟩ := holds_of_tick ran
      obtain ⟨calls, globals, _, _, _, performed, _⟩ := account_of_tick holds ran
      exact keeps.performs performed

theorem map_idOf_outcomes {fuel : Nat} {forest : Forest} {pairs : List (Handler α × α)}
    (keep : ∀ pair ∈ pairs, pair.1.behaviors.KeepsIds)
    {outcomes : List (Except TickError Status × (Handler α × α))}
    (ticked : List.Forall₂ (Ticked fuel forest) pairs outcomes) :
    (outcomes.map Prod.snd).map idOf = pairs.map idOf := by
  induction ticked with
  | nil => rfl
  | cons first _ induction =>
      rw [List.map_cons, List.map_cons, List.map_cons,
        idOf_of_ticked (keep _ List.mem_cons_self) first,
        induction fun other member => keep other (List.mem_cons_of_mem _ member)]

theorem Queues.ordered_outcomes (queues : Queues batch queue)
    (keep : ∀ pair ∈ batch, pair.1.behaviors.KeepsIds) {fuel : Nat} {forest : Forest}
    {outcomes : List (Except TickError Status × (Handler α × α))}
    (ticked : List.Forall₂ (Ticked fuel forest) queue outcomes) :
    (outcomes.map Prod.snd).Pairwise fun earlier later => idOf earlier ≤ idOf later := by
  have ordered : (queue.map idOf).Pairwise (· ≤ ·) :=
    List.pairwise_map.mpr queues.ordered
  rw [← map_idOf_outcomes (fun pair member =>
    keep pair (queues.perm.mem_iff.mp member)) ticked] at ordered
  exact List.pairwise_map.mp ordered

end Queue

theorem halts_of_steps {forest : Forest} {pairs : List (Handler α × α)}
    (halt : ∀ pair ∈ pairs, ∃ outcome bound, ∀ fuel, bound ≤ fuel →
      step fuel forest pair = some outcome) :
    ∃ outcomes bound, ∀ fuel, bound ≤ fuel →
      pairs.mapM (step fuel forest) = some outcomes := by
  induction pairs with
  | nil => exact ⟨[], 0, fun _ _ => rfl⟩
  | cons pair rest induction =>
      obtain ⟨outcome, bound, ends⟩ := halt pair List.mem_cons_self
      obtain ⟨outcomes, later, rests⟩ :=
        induction fun other member => halt other (List.mem_cons_of_mem _ member)
      refine ⟨outcome :: outcomes, max bound later, fun fuel enough => ?_⟩
      rw [List.mapM_cons, ends fuel (Nat.le_trans (Nat.le_max_left _ _) enough),
        rests fuel (Nat.le_trans (Nat.le_max_right _ _) enough)]
      rfl

theorem halts_of_bounded [Agent α] {forest : Forest} (wellFormed : forest.WellFormed)
    {batch : List (Handler α × α)}
    (bounded : ∀ pair ∈ batch,
      pair.1.config.maxStepsPerTick ≠ none ∨ forest.Untangled) :
    ∃ outcomes bound, ∀ fuel, bound ≤ fuel →
      stepAll fuel forest batch = some outcomes := by
  obtain ⟨queue, queues, ticks⟩ := exists_queues batch
  have halt : ∀ pair ∈ queue, ∃ outcome bound, ∀ fuel, bound ≤ fuel →
      step fuel forest pair = some outcome := by
    intro pair member
    obtain ⟨outcome, bound, ends⟩ := halts_of_tick wellFormed pair.1
      (bounded pair (queues.perm.mem_iff.mp member)) pair.2
    exact ⟨_, bound, fun fuel enough => by rw [step, ends fuel enough, Option.map_some]⟩
  obtain ⟨outcomes, bound, ends⟩ := halts_of_steps halt
  exact ⟨outcomes, bound, fun fuel enough => (ticks fuel forest).trans (ends fuel enough)⟩

/-- A batch is ticked in the order of its ids, in which pairs with equal ids keep
their order, and the outcome of each pair is that of its own tick.  If no two ids are equal the order in
which the pairs come leaves no trace.  A pair that cannot be ticked stays as it is, and
the others fare as they would without it.  The final batch is in the order of its ids
if behaviours do not change them.  A batch halts if its handlers have step budgets or
the forest is untangled. -/
theorem batch_exact [Agent α] (forest : Forest) (batch : List (Handler α × α)) :
    (∃ queue, (∀ other, Queues batch other ↔ other = queue) ∧
      ∀ fuel outcomes, stepAll fuel forest batch = some outcomes ↔
        List.Forall₂ (Ticked fuel forest) queue outcomes) ∧
    ((batch.map idOf).Nodup → ∀ other, other.Perm batch →
      ∀ fuel, stepAll fuel forest other = stepAll fuel forest batch) ∧
    (∀ fuel (pair : Handler α × α) cause, pair.1.obstacle forest = some cause →
      tick fuel forest pair.1 pair.2 = some (.error cause) ∧
      step fuel forest pair = some (.error cause, pair)) ∧
    (∀ fuel, stepAll fuel forest
        (batch.filter fun pair => (pair.1.obstacle forest).isNone) =
      (stepAll fuel forest batch).map (List.filter fun outcome => outcome.1.isOk)) ∧
    ((∀ pair ∈ batch, pair.1.behaviors.KeepsIds) →
      ∀ fuel outcomes, stepAll fuel forest batch = some outcomes →
        (outcomes.map Prod.snd).Pairwise fun earlier later =>
          idOf earlier ≤ idOf later) ∧
    (forest.WellFormed →
      (∀ pair ∈ batch, pair.1.config.maxStepsPerTick ≠ none ∨ forest.Untangled) →
      ∃ outcomes bound, ∀ fuel, bound ≤ fuel →
        stepAll fuel forest batch = some outcomes) := by
  obtain ⟨queue, queues, ticks⟩ := exists_queues batch
  refine ⟨⟨queue, fun other => ⟨queues.unique, fun same => same ▸ queues⟩,
    fun _ _ => queues.stepAll_eq_some_iff⟩, ?_, fun fuel pair cause hinders =>
      ⟨tick_of_obstacle hinders fuel, step_of_obstacle hinders fuel⟩, ?_, ?_,
    fun wellFormed bounded => halts_of_bounded wellFormed bounded⟩
  · intro distinct other perm fuel
    obtain ⟨reordered, requeues, others⟩ := exists_queues other
    rw [ticks, others,
      queues.eq_of_perm distinct (requeues.perm.trans perm) requeues.ordered]
  · intro fuel
    rw [(queues.filter _).stepAll_eq, mapM_step_filter, ticks]
  · intro keep fuel outcomes stepped
    exact queues.ordered_outcomes keep (queues.stepAll_eq_some_iff.mp stepped)

/-- A walker with a step budget, bound to a tree or to none. -/
def marcher (tree : Option TreeId) : Handler UInt64 :=
  { walker with
    config := { maxStepsPerTick := some 100 }
    blackboard := tree.map fun id => .new id 0 0 {} }

/-- The last in a column, before one whose tree is not there and one without a
blackboard. -/
def column : List (Handler UInt64 × UInt64) :=
  [(marcher (some ⟨1⟩), 3), (marcher (some ⟨9⟩), 1), (marcher none, 2)]

theorem marcher_of_mem_column {pair : Handler UInt64 × UInt64}
    (member : pair ∈ column) : ∃ tree, pair.1 = marcher tree := by
  simp only [column, List.mem_cons, List.not_mem_nil, or_false] at member
  rcases member with rfl | rfl | rfl <;> exact ⟨_, rfl⟩

/-- The column may be drawn up backwards, and only its last one marches. -/
theorem column_marches :
    ∃ grove queue outcomes bound, Grove.run [] errandSteps = some grove ∧
      queue.Perm column ∧
      ∀ fuel, bound ≤ fuel →
        stepAll fuel (Forest.ofTrees grove) column = some outcomes ∧
        List.Forall₂ (Ticked fuel (Forest.ofTrees grove)) queue outcomes ∧
        stepAll fuel (Forest.ofTrees grove) column.reverse = some outcomes ∧
        ((outcomes.map Prod.snd).Pairwise fun earlier later =>
          idOf earlier ≤ idOf later) ∧
        step fuel (Forest.ofTrees grove) (marcher none, 2) =
          some (.error .notSetUp, (marcher none, 2)) ∧
        stepAll fuel (Forest.ofTrees grove) [(marcher (some ⟨1⟩), 3)] =
          some (outcomes.filter fun outcome => outcome.1.isOk) := by
  have checked : (Grove.run [] errandSteps).any (fun grove =>
      ((Forest.ofTrees grove).get? ⟨1⟩).isSome &&
        ((Forest.ofTrees grove).get? ⟨9⟩).isNone) = true := by
    decide +kernel
  obtain ⟨grove, built, passed⟩ := (Option.any_eq_true _ _).mp checked
  obtain ⟨isThere, isMissing⟩ := Bool.and_eq_true_iff.mp passed
  have wellFormed : (Forest.ofTrees grove).WellFormed := .of_steps built
  have keeps : ∀ tree, (marcher tree).behaviors.KeepsIds := fun _ =>
    Behaviors.keepsIds_empty.withCommand "step" fun _ _ => rfl
  have keepIds : ∀ pair ∈ column, pair.1.behaviors.KeepsIds := by
    intro pair member
    obtain ⟨tree, marches⟩ := marcher_of_mem_column member
    exact marches ▸ keeps tree
  have bounded : ∀ pair ∈ column, pair.1.config.maxStepsPerTick ≠ none ∨
      (Forest.ofTrees grove).Untangled := by
    intro pair member
    obtain ⟨tree, marches⟩ := marcher_of_mem_column member
    exact .inl (marches ▸ Option.some_ne_none _)
  have onlyLast : column.filter
      (fun pair => (pair.1.obstacle (Forest.ofTrees grove)).isNone) =
        [(marcher (some ⟨1⟩), 3)] := by
    simp [column, obstacle, marcher, Blackboard.new, isThere, isMissing]
  obtain ⟨⟨queue, isQueue, exactly⟩, anyOrder, hindered, ready, ordered, halts⟩ :=
    batch_exact (Forest.ofTrees grove) column
  obtain ⟨outcomes, bound, ends⟩ := halts wellFormed bounded
  refine ⟨grove, queue, outcomes, bound, built, ((isQueue queue).mpr rfl).perm,
    fun fuel enough => ⟨ends fuel enough,
      (exactly fuel outcomes).mp (ends fuel enough), ?_,
      ordered keepIds fuel outcomes (ends fuel enough),
      (hindered fuel (marcher none, 2) .notSetUp rfl).2, ?_⟩⟩
  · rw [anyOrder (by decide) _ (List.reverse_perm _), ends fuel enough]
  · rw [← onlyLast, ready, ends fuel enough, Option.map_some]

end Handler

end BehaviorTree
