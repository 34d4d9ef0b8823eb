import BehaviorTree.Proofs.Pass.Observing

/-!
# Counts of Repeaters

A Repeater counts the results of its child, and neither the end of an activation
nor a setup touches the count.  So the count is that of the results since the
Repeater last succeeded, and the Repeater succeeds when there are as many as it
is to repeat.
-/

namespace BehaviorTree

open BehaviorTree.Pass

/-- A result that a Repeater counts. -/
def Status.IsCounted (status : Status) : Prop :=
  status = .success ∨ status = .failure

instance (status : Status) : Decidable status.IsCounted :=
  inferInstanceAs (Decidable (_ ∨ _))

/-- What one update of a Repeater does. -/
inductive Pass.Repeating (composite : Node) : Conduct where
  /-- The count is full, and counting starts over. -/
  | full {repeats count : UInt32} : repeats ≤ count →
      Repeating composite (.repeater repeats count) [] .success
        (.repeater repeats 0)
  | counted {repeats count : UInt32} {status : Status} : count < repeats →
      status.IsCounted →
      Repeating composite (.repeater repeats count) (composite.replyAt 0 status)
        .running (.repeater repeats (count + 1))
  | passed {repeats count : UInt32} {status : Status} : count < repeats →
      ¬ status.IsCounted →
      Repeating composite (.repeater repeats count) (composite.replyAt 0 status)
        status (.repeater repeats count)

namespace Pass

variable {α : Type} {setting : Setting α} {home : Tree} {composite : Node}
  {before after : Pass α} {status : Status} {repeats count configured : UInt32}

theorem repeater_eq {visit : PassM.Visit α}
    (counts : (before.board.stateFor home composite).kind =
      .repeater repeats count) :
    PassM.repeater visit home composite before =
      (if repeats ≤ count then do
        PassM.setRepeatCount home composite fun _ => 0
        return .success
      else do
        let status ← PassM.tickChild visit home composite 0
        if status = .success ∨ status = .failure then
          PassM.setRepeatCount home composite (· + 1)
          return .running
        else return status : PassM α Status)
        (before.ensureState home composite).2 := by
  have isState : (before.ensureState home composite).1.kind =
      .repeater repeats count := counts
  rw [PassM.repeater, PassM.modifyGet_bind, isState]
  rfl

theorem counts_of_setRepeatCount
    (counts : (before.board.stateFor home composite).kind =
      .repeater repeats count) {change : UInt32 → UInt32}
    (set : PassM.setRepeatCount home composite change before = some ((), after)) :
    Tells composite [] before after ∧
      (after.board.stateFor home composite).kind =
        .repeater repeats (change count) := by
  have aside := PassM.aside_of_recorded
    (PassM.setRepeatCount_eq home composite before change) set
  refine ⟨.of_aside aside, ?_⟩
  have fits : (KindState.repeater repeats (change count)).fits composite.kind =
      true := by
    have fits := before.board.fits_stateFor home composite
    rw [counts] at fits
    exact fits
  cases set
  exact kind_updateKind (by rw [counts]) fits

theorem obeys_counts (wellFormed : setting.forest.WellFormed)
    (isScoped : setting.forest.Scoped)
    (composed : setting.forest.Located home composite)
    (apart : ∀ other, setting.forest.Leads (home.refTo composite) other →
      other.hash ≠ composite.hash)
    (isRepeater : composite.kind = .repeater configured) :
    Obeys setting home composite (Repeating composite) := by
  intro fuel result opened body updated
  obtain ⟨repeats, count, isKind⟩ := exists_repeater_of_fits isRepeater
    (opened.board.fits_stateFor home composite)
  rw [PassM.update, isRepeater] at updated
  dsimp only at updated
  rw [repeater_eq isKind] at updated
  rw [isKind]
  have ensured : Tells composite [] opened
      (opened.ensureState home composite).2 := .of_same rfl
  rw [← opened.stateFor_ensureState home composite] at isKind
  split_ifs at updated with full
  · rw [PassM.bind_apply] at updated
    obtain ⟨⟨_, last⟩, set, updated⟩ := Option.bind_eq_some_iff.mp updated
    cases updated
    obtain ⟨silent, changed⟩ := counts_of_setRepeatCount isKind set
    rw [changed]
    exact ⟨[], ensured.trans silent, .full full⟩
  rw [PassM.bind_apply] at updated
  obtain ⟨⟨status, middle⟩, ticked, updated⟩ :=
    Option.bind_eq_some_iff.mp updated
  dsimp only at updated
  have consults := consults_of_tickChild wellFormed isScoped composed apart
    (by rw [isRepeater]; rfl) ticked
  rw [← consults.stateFor home] at isKind
  have told := ensured.after_silence consults.tells
  have below : count < repeats := UInt32.not_le.mp full
  split_ifs at updated with isCounted
  · rw [PassM.bind_apply] at updated
    obtain ⟨⟨_, last⟩, set, updated⟩ := Option.bind_eq_some_iff.mp updated
    cases updated
    obtain ⟨silent, changed⟩ := counts_of_setRepeatCount isKind set
    rw [changed]
    exact ⟨_, told.then_silence silent, .counted below isCounted⟩
  · cases updated
    rw [isKind]
    exact ⟨_, told, .passed below isCounted⟩

end Pass

/-- How many of the results are counted. -/
def Replies.counted (replies : Replies) : Nat :=
  replies.countP fun reply => reply.2.IsCounted

/-- The count after an update. -/
def Stint.count (count : Nat) (stint : Stint) : Nat :=
  if stint.result = .success then 0 else count + Replies.counted stint.replies

/-- The count after updates that began with none. -/
def tally (stints : List Stint) : Nat := stints.foldl Stint.count 0

theorem tally_append (earlier : List Stint) (stint : Stint) :
    tally (earlier ++ [stint]) = stint.count (tally earlier) := by
  rw [tally, List.foldl_append]
  rfl

/-- What an update of a Repeater does that begins with a count. -/
inductive Repeats (repeats : Nat) (child : NodeHash) (count : Nat)
    (stint : Stint) : Prop where
  | full : count = repeats → stint.replies = [] → stint.result = .success →
      Repeats repeats child count stint
  | visits {status : Status} : count < repeats →
      stint.replies = [(child, status)] →
      stint.result = (if status.IsCounted then .running else status) →
      Repeats repeats child count stint

/-- Each update begins with the count of those before it. -/
def Tallied (repeats : Nat) (child : NodeHash) : List Stint → Prop :=
  Throughout fun earlier => Repeats repeats child (tally earlier)

namespace Repeats

variable {repeats count : Nat} {child : NodeHash} {stint : Stint}

theorem le (repetition : Repeats repeats child count stint) :
    count ≤ repeats := by
  cases repetition with
  | full isFull => exact isFull.le
  | visits below => exact below.le

theorem result_eq_success_iff (repetition : Repeats repeats child count stint) :
    stint.result = .success ↔ count = repeats := by
  cases repetition with
  | full isFull _ succeeds => exact ⟨fun _ => isFull, fun _ => succeeds⟩
  | @visits status below _ result =>
      refine ⟨fun succeeds => ?_, fun isFull => absurd isFull below.ne⟩
      rw [result] at succeeds
      split_ifs at succeeds with isCounted
      exact absurd (.inl succeeds) isCounted

theorem replies_eq_nil (repetition : Repeats repeats child count stint)
    (succeeds : stint.result = .success) : stint.replies = [] := by
  have isFull := repetition.result_eq_success_iff.mp succeeds
  cases repetition with
  | full _ none _ => exact none
  | visits below => exact absurd isFull below.ne

theorem visits_of_ne (repetition : Repeats repeats child count stint)
    (unsuccessful : stint.result ≠ .success) :
    ∃ status, stint.replies = [(child, status)] ∧
      stint.result = if status.IsCounted then .running else status := by
  cases repetition with
  | full _ _ succeeds => exact absurd succeeds unsuccessful
  | visits _ replies result => exact ⟨_, replies, result⟩

end Repeats

namespace Tallied

variable {repeats : Nat} {child : NodeHash} {stints : List Stint}

theorem tally_eq {earlier middle : List Stint}
    (unsuccessful : ∀ stint ∈ middle, stint.result ≠ .success) :
    tally (earlier ++ middle) =
      tally earlier + Replies.counted (middle.flatMap (·.replies)) := by
  induction middle using List.reverseRecOn with
  | nil => simp [Replies.counted]
  | append_singleton middle stint induction =>
      have before := induction fun stint member =>
        unsuccessful stint (List.mem_append_left _ member)
      have goesOn := unsuccessful stint (by simp)
      rw [← List.append_assoc, tally_append, Stint.count, if_neg goesOn, before]
      simp [Replies.counted, Nat.add_assoc]

/-- Between two successes, or before the first one, exactly as many results are
counted as are to be repeated. -/
theorem counted_eq (tallied : Tallied repeats child stints)
    {earlier middle later : List Stint} {last : Stint}
    (split : stints = earlier ++ middle ++ last :: later)
    (anew : ∀ stint ∈ earlier.getLast?, stint.result = .success)
    (unsuccessful : ∀ stint ∈ middle, stint.result ≠ .success)
    (succeeds : last.result = .success) :
    Replies.counted (middle.flatMap (·.replies)) = repeats := by
  have full := (tallied _ _ _ split).result_eq_success_iff.mp succeeds
  have zero : tally earlier = 0 := by
    rcases List.eq_nil_or_concat earlier with rfl | ⟨rest, stint, rfl⟩
    · rfl
    · rw [List.concat_eq_append] at anew ⊢
      rw [tally_append, Stint.count, if_pos (anew stint (by simp))]
  rw [tally_eq unsuccessful, zero, Nat.zero_add] at full
  exact full

end Tallied

/-- A Repeater keeps count. -/
structure KeepsCount (repeats : UInt32) (child : NodeHash) (diary : Diary)
    (_running : Bool) (kind : KindState) : Prop where
  tallied : Tallied repeats.toNat child diary.stints
  counts : ∃ count, kind = .repeater repeats count ∧ count ≤ repeats ∧
    count.toNat = tally diary.stints

section Discipline

variable {home : Tree} {composite : Node} {repeats : UInt32} {child : NodeHash}

theorem begunKind_repeater (isRepeater : composite.kind = .repeater repeats)
    (running : Bool) (count : UInt32) :
    begunKind home composite running (.repeater repeats count) =
      .repeater repeats count := by
  rw [begunKind, isRepeater]
  exact ite_self _

theorem endedKind_repeater (result : Status) (count : UInt32) :
    endedKind result (.repeater repeats count) = .repeater repeats count :=
  ite_self _

theorem discipline_counts (isRepeater : composite.kind = .repeater repeats)
    (only : composite.children = [child]) :
    Discipline home composite (Repeating composite) (KeepsCount repeats child) where
  update := by
    intro diary running kind changed replies result keeps moved _
    obtain ⟨tallied, count, rfl, within, counts⟩ := keeps
    have listed : composite.children[0]? = some child := by rw [only]; rfl
    rw [begunKind_repeater isRepeater] at moved
    cases moved with
    | full isFull =>
        have same := UInt32.le_antisymm within isFull
        refine ⟨?_, 0, endedKind_repeater _ _, UInt32.zero_le, ?_⟩
        · rw [Diary.stints_after]
          exact Throughout.snoc tallied (.full (by rw [← counts, same]) rfl rfl)
        · rw [Diary.stints_after, tally_append, Stint.count, if_pos rfl]
          rfl
    | @counted _ _ status below isCounted =>
        have smaller := UInt32.lt_iff_toNat_lt.mp below
        have grows : (count + 1).toNat = count.toNat + 1 := by
          have bounded := repeats.toNat_lt
          rw [UInt32.toNat_add, UInt32.toNat_one, Nat.mod_eq_of_lt]
          omega
        rw [Node.replyAt_eq listed]
        refine ⟨?_, count + 1, endedKind_repeater _ _, ?_, ?_⟩
        · rw [Diary.stints_after]
          refine Throughout.snoc tallied (.visits (by rwa [← counts]) rfl ?_)
          rw [if_pos isCounted]
        · rw [UInt32.le_iff_toNat_le, grows]
          exact smaller
        · rw [Diary.stints_after, tally_append, Stint.count,
            if_neg (by decide : Status.running ≠ .success), grows, counts]
          simp [Replies.counted, isCounted]
    | passed below notCounted =>
        rw [Node.replyAt_eq listed]
        refine ⟨?_, count, endedKind_repeater _ _, within, ?_⟩
        · rw [Diary.stints_after]
          refine Throughout.snoc tallied (.visits ?_ rfl ?_)
          · rw [← counts]
            exact UInt32.lt_iff_toNat_lt.mp below
          · rw [if_neg notCounted]
        · rw [Diary.stints_after, tally_append, Stint.count,
            if_neg (notCounted ∘ .inl), counts]
          simp [Replies.counted, notCounted]
  close := by
    rintro diary running _ ⟨tallied, count, rfl, within, counts⟩ _
    exact ⟨tallied, count, rfl, within, counts⟩

theorem refreshes_counts (isRepeater : composite.kind = .repeater repeats) :
    Refreshes home composite (KeepsCount repeats child) where
  fresh := by
    refine ⟨Throughout.nil, 0, ?_, UInt32.zero_le, rfl⟩
    rw [NodeState.initialKind, isRepeater]
  stop := fun ⟨tallied, counts⟩ _ => ⟨tallied, counts⟩
  sync := by
    rintro diary _ ⟨tallied, count, rfl, within, counts⟩ _
    refine ⟨tallied, count, ?_, within, counts⟩
    rw [isRepeater]
    rfl

end Discipline

end BehaviorTree
