import BehaviorTree.Proofs.Pass.Nesting
import BehaviorTree.Proofs.Pass.Ranging

/-!
# Results since an opening

A journal tells of each child of a composite what its latest tick came to since
the composite was opened, and what a stretch of the journal changes about this.
No node comes to a result before it is opened, be it in an earlier pass.
-/

namespace BehaviorTree

open BehaviorTree.Pass

/-- What is known of a child after an entry.  When the composite is opened, the
results of its children are forgotten; a refused tick is an error. -/
def Activity.revise (composite child : NodeHash) (known : Option Status) :
    Activity → Option Status
  | opened ref => if ref.hash = composite then none else known
  | finished ref status => if ref.hash = child then some status else known
  | refused ref => if ref.hash = child then some .error else known
  | _ => known

/-- The result of the latest tick of a child since the composite was opened. -/
def resultSinceOpened (composite child : NodeHash) (log : List Activity) :
    Option Status :=
  log.foldl (Activity.revise composite child) none

/-- Since the composite was opened, the latest tick of each of its first `count`
children has come to `success`. -/
def Vouches (composite : Node) (count : Nat) (log : List Activity) : Prop :=
  ∀ child ∈ composite.children.take count,
    resultSinceOpened composite.hash child log = some .success

/-- Entries that change nothing about what is known of the children. -/
def Neutral (composite : Node) (log : List Activity) : Prop :=
  ∀ child ∈ composite.children, ∀ known,
    log.foldl (Activity.revise composite.hash child) known = known

/-- No node of the hash comes to a result. -/
def Unfinished (hash : NodeHash) (log : List Activity) : Prop :=
  ∀ ref status, .finished ref status ∈ log → ref.hash ≠ hash

/-- Entries that do not open the composite and tell no result of it or of a child
of it. -/
structure Bypasses (composite : Node) (log : List Activity) : Prop where
  neutral : Neutral composite log
  unfinished : Unfinished composite.hash log

/-- Entries that tell one result of a child of the composite, and otherwise
bypass it. -/
structure Answers (composite : Node) (child : NodeHash) (status : Status)
    (log : List Activity) : Prop where
  revise : ∀ other ∈ composite.children, ∀ known,
    log.foldl (Activity.revise composite.hash other) known =
      if other = child then some status else known
  unfinished : Unfinished composite.hash log

variable {composite : Node} {child : NodeHash} {status : Status}
  {log rest : List Activity} {count : Nat}

theorem quiet_sweep (swept : List NodeRef) : Quiet (sweep swept) := by
  intro activity member
  obtain ⟨ref, _, isSwept⟩ := List.mem_flatMap.mp member
  simp only [List.mem_cons, List.not_mem_nil, or_false] at isSwept
  rcases isSwept with rfl | rfl
  · rfl
  · rfl

theorem vouches_zero (log : List Activity) : Vouches composite 0 log := by
  intro child member
  cases member

theorem Unfinished.nil {hash : NodeHash} : Unfinished hash [] := by
  intro ref status member
  cases member

theorem Unfinished.append {hash : NodeHash} (first : Unfinished hash log)
    (second : Unfinished hash rest) : Unfinished hash (log ++ rest) :=
  fun ref status member => (List.mem_append.mp member).elim (first ref status)
    (second ref status)

namespace Neutral

theorem nil : Neutral composite [] :=
  fun _ _ _ => rfl

theorem append (first : Neutral composite log)
    (second : Neutral composite rest) : Neutral composite (log ++ rest) := by
  intro child isChild known
  rw [List.foldl_append, first child isChild, second child isChild]

theorem cons {activity : Activity}
    (first : ∀ child ∈ composite.children, ∀ known,
      activity.revise composite.hash child known = known)
    (second : Neutral composite rest) :
    Neutral composite (activity :: rest) := by
  intro child isChild known
  rw [List.foldl_cons, first child isChild, second child isChild]

theorem of_silent
    (silent : ∀ activity ∈ log, ∀ composite child known,
      activity.revise composite child known = known) :
    Neutral composite log := by
  induction log with
  | nil => exact nil
  | cons activity rest induction =>
      apply cons
      · intro child _ known
        exact silent activity List.mem_cons_self composite.hash child known
      · exact induction fun other member =>
          silent other (List.mem_cons_of_mem _ member)

theorem vouches (neutral : Neutral composite rest)
    (vouches : Vouches composite count log) :
    Vouches composite count (log ++ rest) := by
  intro child member
  rw [resultSinceOpened, List.foldl_append,
    neutral child (List.mem_of_mem_take member)]
  exact vouches child member

end Neutral

namespace Bypasses

theorem nil : Bypasses composite [] where
  neutral := .nil
  unfinished := .nil

theorem append (first : Bypasses composite log)
    (second : Bypasses composite rest) : Bypasses composite (log ++ rest) where
  neutral := first.neutral.append second.neutral
  unfinished := first.unfinished.append second.unfinished

theorem of_remarks (areRemarks : ∀ activity ∈ log, activity.isRemark = true) :
    Bypasses composite log where
  neutral := by
    apply Neutral.of_silent
    intro activity member composite child known
    have remark := areRemarks activity member
    cases activity with
    | ran => rfl
    | misfit => rfl
    | _ => cases remark
  unfinished ref status member := by
    cases areRemarks _ member

theorem of_sweep (swept : List NodeRef) :
    Bypasses composite (sweep swept) where
  neutral := by
    apply Neutral.of_silent
    intro activity member composite child known
    obtain ⟨ref, _, isSwept⟩ := List.mem_flatMap.mp member
    simp only [List.mem_cons, List.not_mem_nil, or_false] at isSwept
    rcases isSwept with rfl | rfl
    · rfl
    · rfl
  unfinished ref status member := by
    simp [sweep] at member

theorem answers (bypasses : Bypasses composite log)
    (answers : Answers composite child status rest) :
    Answers composite child status (log ++ rest) where
  revise other member known := by
    rw [List.foldl_append, bypasses.neutral other member,
      answers.revise other member]
  unfinished := bypasses.unfinished.append answers.unfinished

end Bypasses

namespace Answers

variable {index : Nat}

theorem vouches_succ (answers : Answers composite child .success rest)
    (isChild : composite.children[index]? = some child)
    (vouches : Vouches composite index log) :
    Vouches composite (index + 1) (log ++ rest) := by
  intro other member
  rw [resultSinceOpened, List.foldl_append,
    answers.revise other (List.mem_of_mem_take member)]
  by_cases same : other = child
  · rw [if_pos same]
  · rw [if_neg same]
    apply vouches
    rw [List.take_add_one, isChild] at member
    simpa [same] using member

theorem vouches (answers : Answers composite child status rest)
    (distinct : composite.children.Nodup)
    (isChild : composite.children[index]? = some child)
    (vouches : Vouches composite index log) :
    Vouches composite index (log ++ rest) := by
  intro other member
  rw [resultSinceOpened, List.foldl_append,
    answers.revise other (List.mem_of_mem_take member), if_neg ?_]
  · exact vouches other member
  · rintro rfl
    have later : other ∈ composite.children.drop index := by
      rw [List.mem_iff_getElem?]
      exact ⟨0, by rw [List.getElem?_drop, Nat.add_zero, isChild]⟩
    exact List.disjoint_take_drop distinct (Nat.le_refl index) member later

end Answers

/-- Tells whether a node of the given hash is entered while another update of it
is under way; `underWay` counts those. -/
def reenters (hash : NodeHash) : Nat → List Activity → Bool
  | _, [] => false
  | underWay, .entered ref :: rest =>
    if ref.hash = hash then
      0 < underWay || reenters hash (underWay + 1) rest
    else reenters hash underWay rest
  | underWay, .finished ref _ :: rest =>
    if ref.hash = hash then reenters hash (underWay - 1) rest
    else reenters hash underWay rest
  | underWay, _ :: rest => reenters hash underWay rest

/-- No node of the hash is entered. -/
def Misses (hash : NodeHash) (log : List Activity) : Prop :=
  ∀ ref : NodeRef, .entered ref ∈ log → ref.hash ≠ hash

theorem misses_append {hash : NodeHash} :
    Misses hash (log ++ rest) ↔ Misses hash log ∧ Misses hash rest := by
  simp only [Misses, List.mem_append]
  constructor
  · exact fun misses => ⟨fun ref member => misses ref (.inl member),
      fun ref member => misses ref (.inr member)⟩
  · exact fun ⟨first, second⟩ ref member =>
      member.elim (first ref) (second ref)

theorem reenters_append (nested : Nested log) (hash : NodeHash) (underWay : Nat)
    (rest : List Activity) :
    reenters hash underWay (log ++ rest) =
      (reenters hash underWay log || reenters hash underWay rest) := by
  induction nested generalizing underWay rest with
  | nil => rfl
  | @entry activity _ plain _ induction =>
      cases activity with
      | entered => cases plain
      | finished => cases plain
      | _ => exact induction underWay rest
  | @update ref status inner later _ _ innerInduction induction =>
      rw [List.cons_append, List.append_assoc, List.cons_append, reenters,
        reenters]
      by_cases same : ref.hash = hash
      · rw [if_pos same, if_pos same, innerInduction, innerInduction, reenters,
          reenters, if_pos same, if_pos same, Nat.add_sub_cancel, induction]
        simp only [Bool.or_assoc]
      · rw [if_neg same, if_neg same, innerInduction, innerInduction, reenters,
          reenters, if_neg same, if_neg same, induction, Bool.or_assoc]

theorem reenters_update (nested : Nested log) (hash : NodeHash) (underWay : Nat)
    (ref : NodeRef) (status : Status) (rest : List Activity) :
    reenters hash underWay
        (.entered ref :: (log ++ .finished ref status :: rest)) =
      if ref.hash = hash then
        0 < underWay || (reenters hash (underWay + 1) log ||
          reenters hash underWay rest)
      else reenters hash underWay log || reenters hash underWay rest := by
  rw [reenters, reenters_append nested, reenters_append nested, reenters,
    reenters]
  by_cases same : ref.hash = hash
  · rw [if_pos same, if_pos same, if_pos same, Nat.add_sub_cancel]
  · rw [if_neg same, if_neg same, if_neg same]

/-- Unless it is entered again, a node is not entered while it is updated. -/
theorem misses_of_reenters (nested : Nested log) {hash : NodeHash}
    {underWay : Nat} (single : reenters hash (underWay + 1) log = false) :
    Misses hash log := by
  induction nested with
  | nil => exact fun ref member => nomatch member
  | @entry activity rest plain _ induction =>
      rw [← List.singleton_append]
      refine misses_append.mpr ⟨?_, ?_⟩
      · intro ref member
        rw [← List.mem_singleton.mp member] at plain
        cases plain
      · cases activity with
        | entered => cases plain
        | finished => cases plain
        | _ => exact induction single
  | @update ref status inner later isInner _ innerInduction induction =>
      rw [reenters_update isInner] at single
      by_cases same : ref.hash = hash
      · rw [if_pos same] at single
        simp at single
      rw [if_neg same, Bool.or_eq_false_iff] at single
      have here : Misses hash [.entered ref] := by
        intro other member
        cases List.mem_singleton.mp member
        exact same
      have ends : Misses hash [.finished ref status] := by
        intro other member
        cases List.mem_singleton.mp member
      have inside := misses_append.mpr ⟨innerInduction single.1,
        misses_append.mpr ⟨ends, induction single.2⟩⟩
      exact misses_append.mpr ⟨here, inside⟩

/-- Each entry that is added to a journal satisfies a condition on the entries
before it. -/
def Justified (justifies : List Activity → Activity → Prop)
    (past growth : List Activity) : Prop :=
  ∀ sooner activity rest, growth = sooner ++ activity :: rest →
    justifies (past ++ sooner) activity

namespace Justified

variable {justifies : List Activity → Activity → Prop} {past : List Activity}

theorem append (first : Justified justifies past log)
    (second : Justified justifies (past ++ log) rest) :
    Justified justifies past (log ++ rest) := by
  intro sooner activity later split
  rcases List.append_eq_append_iff.mp split with
    ⟨middle, rfl, isRest⟩ | ⟨middle, isLog, isLater⟩
  · rw [← List.append_assoc]
    exact second middle activity later isRest
  cases middle with
  | nil =>
      rw [List.append_nil] at isLog
      have begins := second [] activity later isLater.symm
      rwa [List.append_nil, isLog] at begins
  | cons other middle =>
      obtain ⟨rfl, _⟩ := List.cons.inj isLater
      exact first sooner activity middle isLog

theorem of_free (free : ∀ activity ∈ log, ∀ told, justifies told activity) :
    Justified justifies past log := by
  intro sooner activity later split
  exact free activity (split ▸ List.mem_append_right _ List.mem_cons_self) _

theorem cons {activity : Activity} (here : justifies past activity)
    (free : ∀ activity ∈ rest, ∀ told, justifies told activity) :
    Justified justifies past (activity :: rest) := by
  rw [← List.singleton_append]
  refine append ?_ (of_free free)
  intro sooner found later split
  rcases List.singleton_eq_append_iff.mp split with ⟨rfl, same⟩ | ⟨_, absent⟩
  · obtain ⟨rfl, _⟩ := List.cons.inj same
    rwa [List.append_nil]
  · cases absent

end Justified

/-- A node of the hash was opened. -/
def IsOpened (hash : NodeHash) (log : List Activity) : Prop :=
  ∃ ref : NodeRef, ref.hash = hash ∧ .opened ref ∈ log

theorem IsOpened.append {hash : NodeHash} (isOpened : IsOpened hash log)
    (rest : List Activity) : IsOpened hash (log ++ rest) := by
  obtain ⟨ref, same, member⟩ := isOpened
  exact ⟨ref, same, List.mem_append_left _ member⟩

/-- The entry is no result of a node that has not been opened. -/
def Activity.FollowsOpening (told : List Activity) (activity : Activity) : Prop :=
  ∀ ref status, activity = .finished ref status → IsOpened ref.hash told

namespace Pass

variable {α : Type} {past : List Activity} {before after : Pass α}

/-- Nodes that are running, are updated or have come to a result have been
opened, before the pass or in it. -/
structure Opens (past : List Activity) (pass : Pass α) : Prop where
  running : ∀ hash, pass.board.isRunning hash = true →
    IsOpened hash (past ++ pass.log)
  entered : ∀ ref, .entered ref ∈ pass.log → IsOpened ref.hash (past ++ pass.log)
  results : Justified Activity.FollowsOpening past pass.log

namespace Opens

variable {forest : Forest} {tree : Tree} {node : Node}
  {growth : List Activity} {status : Status} (opens : Opens past before)
include opens

/-- A stretch in which what is flagged, entered or comes to a result has been
opened. -/
theorem grow (log : after.log = before.log ++ growth)
    (running : ∀ hash, after.board.isRunning hash = true →
      before.board.isRunning hash = true ∨ IsOpened hash (past ++ after.log))
    (entered : ∀ ref, .entered ref ∈ growth →
      IsOpened ref.hash (past ++ after.log))
    (results : Justified Activity.FollowsOpening (past ++ before.log) growth) :
    Opens past after where
  running hash isRunning := by
    rcases running hash isRunning with wasRunning | isOpened
    · rw [log, ← List.append_assoc]
      exact (opens.running hash wasRunning).append growth
    · exact isOpened
  entered ref member := by
    rw [log] at member
    rcases List.mem_append.mp member with member | member
    · rw [log, ← List.append_assoc]
      exact (opens.entered ref member).append growth
    · exact entered ref member
  results := by
    rw [log]
    exact opens.results.append results

theorem aside (aside : Aside tree node before after) : Opens past after := by
  obtain ⟨remarks, log, areRemarks⟩ := aside.log
  refine opens.grow log (fun hash isRunning => .inl ?_) ?_ (.of_free ?_)
  · by_cases same : hash = node.hash
    · subst same
      rcases aside.here with kept | ⟨state, present, running, _⟩
      · rwa [← Blackboard.isRunning_congr kept]
      · apply Blackboard.isRunning_of_stateFor tree
        rwa [← running, ← Blackboard.isRunning_eq present]
    · rwa [← Blackboard.isRunning_congr (aside.elsewhere same)]
  · intro ref member
    cases areRemarks _ member
  · rintro _ member told ref status rfl
    cases areRemarks _ member

theorem refuse (refuses : Refuses tree node before after) :
    Opens past after := by
  refine opens.grow refuses.log (fun hash isRunning => .inl ?_) ?_ (.of_free ?_)
  · rwa [← Blackboard.isRunning_congr (by rw [refuses.states])]
  · simp
  · simp [Activity.FollowsOpening]

/-- A node that is entered is running or opened then. -/
theorem enter (enters : Enters tree node before after) :
    Opens past after := by
  have isOpened : IsOpened node.hash (past ++ after.log) := by
    cases wasRunning : (before.board.stateFor tree node).running with
    | true =>
        rw [enters.log, ← List.append_assoc]
        apply IsOpened.append
        exact opens.running _ (Blackboard.isRunning_of_stateFor tree wasRunning)
    | false =>
        refine ⟨tree.refTo node, rfl, List.mem_append_right _ ?_⟩
        exact enters.mem_log_iff.mpr (.inr (.inr ⟨wasRunning, rfl⟩))
  refine opens.grow enters.log (fun hash isRunning => ?_) ?_ (.of_free ?_)
  · by_cases same : hash = node.hash
    · exact .inr (same ▸ isOpened)
    · left
      rwa [← Blackboard.isRunning_congr (enters.elsewhere same)]
  · intro ref member
    have same : ref = tree.refTo node := by
      split at member <;> simpa using member
    exact same ▸ isOpened
  · rintro _ member told ref status rfl
    split at member <;> simp at member

/-- A node that is left has been entered. -/
theorem leave (entered : .entered (tree.refTo node) ∈ before.log)
    (leaves : Leaves tree node status before after) : Opens past after := by
  have isOpened := opens.entered _ entered
  refine opens.grow leaves.log (fun hash isRunning => ?_) ?_ (.cons ?_ ?_)
  · by_cases same : hash = node.hash
    · right
      rw [leaves.log, ← List.append_assoc, same]
      exact isOpened.append _
    · left
      rwa [← Blackboard.isRunning_congr (leaves.elsewhere same)]
  · intro ref member
    split at member <;> simp at member
  · intro ref found same
    cases same
    exact isOpened
  · rintro _ member told ref found rfl
    split at member <;> simp at member

theorem step (step : Step forest before after) : Opens past after := by
  cases step with
  | aside _ aside => exact opens.aside aside
  | refuse _ refuses => exact opens.refuse refuses
  | enter _ enters => exact opens.enter enters
  | leave _ entered leaves => exact opens.leave entered leaves
  | jump => exact ⟨opens.running, opens.entered, opens.results⟩

theorem steps (steps : Steps forest before after) : Opens past after := by
  induction steps with
  | refl => exact opens
  | tail _ step induction => exact induction.step step

end Opens

end Pass

end BehaviorTree
