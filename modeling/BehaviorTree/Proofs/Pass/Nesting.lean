import BehaviorTree.Proofs.Pass.Candidates
import BehaviorTree.Proofs.Pass.Ticking

/-!
# Nested updates

In a journal the updates of nodes are nested like brackets: between the entry
of a node and its result stand whole updates of other nodes.  So the journal
tells which nodes an update ticked itself, also when a node is entered again
while it is being updated, and what an update within another one came to.
-/

namespace BehaviorTree

/-- An entry that begins or ends the update of a node. -/
def Activity.isBracket : Activity → Bool
  | entered _ => true
  | finished _ _ => true
  | _ => false

/-- Whole updates one after the other, with other entries between them. -/
inductive Nested : List Activity → Prop where
  | nil : Nested []
  | entry {activity : Activity} {rest : List Activity} :
      activity.isBracket = false →
      Nested rest →
      Nested (activity :: rest)
  | update {ref : NodeRef} {status : Status} {inner rest : List Activity} :
      Nested inner →
      Nested rest →
      Nested (.entered ref :: (inner ++ .finished ref status :: rest))

namespace Nested

variable {log rest : List Activity}

theorem append (nested : Nested log) (next : Nested rest) :
    Nested (log ++ rest) := by
  induction nested with
  | nil => exact next
  | entry plain _ induction => exact .entry plain induction
  | update inner _ _ induction =>
      rw [List.cons_append, List.append_assoc]
      exact .update inner induction

theorem of_entries (plain : ∀ activity ∈ log, activity.isBracket = false) :
    Nested log := by
  induction log with
  | nil => exact .nil
  | cons activity rest induction =>
      refine .entry (plain activity List.mem_cons_self) (induction ?_)
      exact fun other member => plain other (List.mem_cons_of_mem _ member)

end Nested

/-- The nodes that an update ticks itself, read from the entries after its
begin up to its end; `inner` counts the updates under way within it. -/
def ownTicks : Nat → List Activity → List NodeRef
  | _, [] => []
  | inner, .entered ref :: rest =>
    if inner = 0 then ref :: ownTicks 1 rest else ownTicks (inner + 1) rest
  | inner, .refused ref :: rest =>
    if inner = 0 then ref :: ownTicks 0 rest else ownTicks inner rest
  | inner, .finished _ _ :: rest =>
    if inner = 0 then [] else ownTicks (inner - 1) rest
  | inner, _ :: rest => ownTicks inner rest

/-- For each update of a node, the nodes that it ticks itself. -/
def updateTicks (ref : NodeRef) : List Activity → List (List NodeRef)
  | [] => []
  | activity :: rest =>
    if activity = .entered ref then ownTicks 0 rest :: updateTicks ref rest
    else updateTicks ref rest

theorem ownTicks_within {log : List Activity} (nested : Nested log)
    (inner : Nat) (rest : List Activity) :
    ownTicks (inner + 1) (log ++ rest) = ownTicks (inner + 1) rest := by
  induction nested generalizing inner rest with
  | nil => rfl
  | @entry activity _ plain _ induction =>
      cases activity with
      | entered => cases plain
      | finished => cases plain
      | _ => simpa [ownTicks] using induction inner rest
  | @update ref status _ _ _ _ innerInduction induction =>
      rw [List.cons_append, List.append_assoc, ownTicks, if_neg (by omega),
        innerInduction, List.cons_append, ownTicks, if_neg (by omega)]
      exact induction inner rest

/-- An update that is nested in another adds the node to its ticks. -/
theorem ownTicks_append {log : List Activity} (nested : Nested log)
    (rest : List Activity) :
    ownTicks 0 (log ++ rest) = ownTicks 0 log ++ ownTicks 0 rest := by
  induction nested with
  | nil => rfl
  | @entry activity _ plain _ induction =>
      cases activity with
      | entered => cases plain
      | finished => cases plain
      | _ => simpa [ownTicks] using induction
  | @update ref status inner _ isInner _ _ induction =>
      have ends : ∀ later : List Activity,
          ownTicks 0 (.entered ref :: (inner ++ .finished ref status :: later)) =
            ref :: ownTicks 0 later := by
        intro later
        rw [ownTicks, if_pos rfl, ownTicks_within isInner 0, ownTicks,
          if_neg (by omega)]
      rw [List.cons_append, List.append_assoc, List.cons_append, ends, ends,
        induction, List.cons_append]

theorem ownTicks_update {log : List Activity} (nested : Nested log)
    (ref : NodeRef) (status : Status) (rest : List Activity) :
    ownTicks 0 (log ++ .finished ref status :: rest) = ownTicks 0 log := by
  rw [ownTicks_append nested, ownTicks, if_pos rfl, List.append_nil]

theorem updateTicks_append {log : List Activity} (nested : Nested log)
    (ref : NodeRef) (rest : List Activity) :
    updateTicks ref (log ++ rest) =
      updateTicks ref log ++ updateTicks ref rest := by
  induction nested generalizing rest with
  | nil => rfl
  | @entry activity _ plain _ induction =>
      have different : activity ≠ .entered ref := by
        intro same
        subst same
        cases plain
      rw [List.cons_append, updateTicks, updateTicks, if_neg different,
        if_neg different]
      exact induction rest
  | @update other status inner later isInner _ innerInduction induction =>
      have finished : Activity.finished other status ≠ .entered ref := nofun
      rw [List.cons_append, List.append_assoc, List.cons_append, updateTicks,
        updateTicks, ownTicks_update isInner, ownTicks_update isInner,
        innerInduction, innerInduction, updateTicks, updateTicks,
        if_neg finished, if_neg finished, induction]
      split
      · rw [List.cons_append, List.append_assoc]
      · rw [List.append_assoc]

theorem updateTicks_update {log : List Activity} (nested : Nested log)
    (ref other : NodeRef) (status : Status) (rest : List Activity) :
    updateTicks ref (.entered other :: (log ++ .finished other status :: rest)) =
      (if other = ref then [ownTicks 0 log] else []) ++
        (updateTicks ref log ++ updateTicks ref rest) := by
  have finished : Activity.finished other status ≠ .entered ref := nofun
  rw [updateTicks, ownTicks_update nested, updateTicks_append nested,
    updateTicks, if_neg finished]
  by_cases same : other = ref
  · rw [if_pos (congrArg _ same), if_pos same, List.singleton_append]
  · have different : Activity.entered other ≠ .entered ref :=
      fun entered => same (Activity.entered.inj entered)
    rw [if_neg different, if_neg same, List.nil_append]

/-- Tells whether an update of a node of the given hash comes to `running` while
another one is under way; `underWay` counts those. -/
def lingers (hash : NodeHash) : Nat → List Activity → Bool
  | _, [] => false
  | underWay, .entered ref :: rest =>
    if ref.hash = hash then lingers hash (underWay + 1) rest
    else lingers hash underWay rest
  | underWay, .finished ref status :: rest =>
    if ref.hash = hash then
      (1 < underWay && status = .running) || lingers hash (underWay - 1) rest
    else lingers hash underWay rest
  | underWay, _ :: rest => lingers hash underWay rest

/-- No update of a node of the given hash comes to `running`. -/
def Settles (hash : NodeHash) (log : List Activity) : Prop :=
  ∀ ref : NodeRef, .finished ref .running ∈ log → ref.hash ≠ hash

theorem settles_append {hash : NodeHash} {log rest : List Activity} :
    Settles hash (log ++ rest) ↔ Settles hash log ∧ Settles hash rest := by
  simp only [Settles, List.mem_append]
  constructor
  · exact fun settles => ⟨fun ref member => settles ref (.inl member),
      fun ref member => settles ref (.inr member)⟩
  · exact fun ⟨first, second⟩ ref member =>
      member.elim (first ref) (second ref)

theorem settles_cons {hash : NodeHash} {activity : Activity}
    {rest : List Activity} :
    Settles hash (activity :: rest) ↔
      (∀ ref, activity = .finished ref .running → ref.hash ≠ hash) ∧
        Settles hash rest := by
  rw [← List.singleton_append, settles_append]
  simp [Settles, eq_comm]

theorem lingers_of_settles {hash : NodeHash} {log : List Activity}
    (settles : Settles hash log) (underWay : Nat) :
    lingers hash underWay log = false := by
  induction log generalizing underWay with
  | nil => rfl
  | cons activity rest induction =>
      obtain ⟨first, others⟩ := settles_cons.mp settles
      cases activity with
      | entered ref =>
          rw [lingers, induction others, induction others]
          exact ite_self _
      | finished ref status =>
          have notLeft : (decide (ref.hash = hash) &&
              decide (status = .running)) = false := by
            rw [Bool.and_eq_false_iff, decide_eq_false_iff_not,
              decide_eq_false_iff_not]
            by_cases running : status = .running
            · exact .inl (first ref (by rw [running]))
            · exact .inr running
          rw [lingers, induction others, induction others]
          split
          · next same =>
              rw [decide_eq_true same, Bool.true_and] at notLeft
              rw [notLeft, Bool.and_false, Bool.or_false]
          · rfl
      | _ => exact induction others underWay

theorem lingers_append {log : List Activity} (nested : Nested log)
    (hash : NodeHash) (underWay : Nat) (rest : List Activity) :
    lingers hash underWay (log ++ rest) =
      (lingers hash underWay log || lingers hash underWay rest) := by
  induction nested generalizing underWay rest with
  | nil => rfl
  | @entry activity _ plain _ induction =>
      cases activity with
      | entered => cases plain
      | finished => cases plain
      | _ => simpa [lingers] using induction underWay rest
  | @update ref status inner later _ _ innerInduction induction =>
      rw [List.cons_append, List.append_assoc, List.cons_append, lingers,
        lingers]
      by_cases same : ref.hash = hash
      · rw [if_pos same, if_pos same, innerInduction, innerInduction, lingers,
          lingers, if_pos same, if_pos same, Nat.add_sub_cancel, induction]
        simp only [Bool.or_assoc]
      · rw [if_neg same, if_neg same, innerInduction, innerInduction, lingers,
          lingers, if_neg same, if_neg same, induction, Bool.or_assoc]

theorem lingers_update {log : List Activity} (nested : Nested log)
    (hash : NodeHash) (underWay : Nat) (ref : NodeRef) (status : Status)
    (rest : List Activity) :
    lingers hash underWay (.entered ref :: (log ++ .finished ref status :: rest)) =
      if ref.hash = hash then
        lingers hash (underWay + 1) log ||
          ((0 < underWay && status = .running) || lingers hash underWay rest)
      else lingers hash underWay log || lingers hash underWay rest := by
  rw [lingers, lingers_append nested, lingers_append nested, lingers, lingers]
  by_cases same : ref.hash = hash
  · rw [if_pos same, if_pos same, if_pos same, Nat.add_sub_cancel]
    simp
  · rw [if_neg same, if_neg same, if_neg same]

/-- Unless one lingers, no update of the hash comes to `running` within another
one. -/
theorem settles_of_lingers {log : List Activity} (nested : Nested log)
    {hash : NodeHash} {underWay : Nat}
    (settled : lingers hash (underWay + 1) log = false) : Settles hash log := by
  induction nested generalizing underWay with
  | nil => exact fun ref member => nomatch member
  | @entry activity rest plain _ induction =>
      refine settles_cons.mpr ⟨?_, ?_⟩
      · intro ref same
        subst same
        cases plain
      · cases activity with
        | entered => cases plain
        | finished => cases plain
        | _ => exact induction settled
  | @update ref status inner later isInner _ innerInduction induction =>
      rw [lingers_update isInner] at settled
      refine settles_cons.mpr ⟨nofun, settles_append.mpr ?_⟩
      by_cases same : ref.hash = hash
      · rw [if_pos same, Bool.or_eq_false_iff, Bool.or_eq_false_iff] at settled
        obtain ⟨innerSettled, ends, laterSettled⟩ := settled
        refine ⟨innerInduction innerSettled, settles_cons.mpr
          ⟨?_, induction laterSettled⟩⟩
        intro other finished
        cases finished
        simp at ends
      · rw [if_neg same, Bool.or_eq_false_iff] at settled
        refine ⟨innerInduction settled.1, settles_cons.mpr
          ⟨?_, induction settled.2⟩⟩
        intro other finished
        cases finished
        exact same

/-- An entry that is neither the tick of a node nor the end of one. -/
def Activity.isQuiet : Activity → Bool
  | entered _ => false
  | refused _ => false
  | finished _ _ => false
  | _ => true

theorem Activity.isQuiet_of_isRemark {activity : Activity}
    (remark : activity.isRemark = true) : activity.isQuiet = true := by
  cases activity with
  | ran => rfl
  | misfit => rfl
  | _ => cases remark

/-- A log of nothing but quiet entries. -/
def Quiet (log : List Activity) : Prop :=
  ∀ activity ∈ log, activity.isQuiet = true

namespace Quiet

variable {log : List Activity} (quiet : Quiet log)
include quiet

theorem nested : Nested log := by
  refine .of_entries fun activity member => ?_
  have isQuiet := quiet activity member
  cases activity with
  | entered => cases isQuiet
  | finished => cases isQuiet
  | _ => rfl

theorem updateTicks_eq (ref : NodeRef) : updateTicks ref log = [] := by
  induction log with
  | nil => rfl
  | cons activity rest induction =>
      have different : activity ≠ .entered ref := by
        intro same
        subst same
        cases quiet _ List.mem_cons_self
      rw [updateTicks, if_neg different]
      exact induction fun other member =>
        quiet other (List.mem_cons_of_mem _ member)

theorem ownTicks_eq : ownTicks 0 log = [] := by
  induction log with
  | nil => rfl
  | cons activity rest induction =>
      have isQuiet := quiet activity List.mem_cons_self
      have restTicks := induction fun other member =>
        quiet other (List.mem_cons_of_mem _ member)
      cases activity with
      | entered => cases isQuiet
      | refused => cases isQuiet
      | finished => cases isQuiet
      | _ => exact restTicks

end Quiet

namespace Pass

variable {α : Type} {setting : Setting α} {tree : Tree} {node : Node}
  {before after : Pass α} {growth : List Activity}

/-- What the tick of a node adds to the journal.  Candidates of a hash are lost
at most, unless an update of it comes to `running`. -/
structure Visits (ref : NodeRef) (before after : Pass α)
    (growth : List Activity) : Prop where
  log : after.log = before.log ++ growth
  nested : Nested growth
  own : ownTicks 0 growth = [ref]
  fades : ∀ {hash : NodeHash}, Settles hash growth →
    (after.board.candidates hash).Sublist (before.board.candidates hash)

/-- What an update of a node adds to the journal. -/
structure Wanders (node : Node) (before after : Pass α)
    (growth : List Activity) : Prop where
  log : after.log = before.log ++ growth
  nested : Nested growth
  fades : ∀ {hash : NodeHash}, hash ≠ node.hash → Settles hash growth →
    (after.board.candidates hash).Sublist (before.board.candidates hash)

theorem Aside.quiet (aside : Aside tree node before after) :
    ∃ remarks, after.log = before.log ++ remarks ∧ Quiet remarks := by
  obtain ⟨remarks, log, areRemarks⟩ := aside.log
  exact ⟨remarks, log, fun activity member =>
    Activity.isQuiet_of_isRemark (areRemarks activity member)⟩

namespace Wanders

variable {middle : Pass α} {remarks visited : List Activity}

theorem refl : Wanders node before before [] where
  log := (List.append_nil _).symm
  nested := .nil
  fades _ _ := .refl _

theorem aside (wanders : Wanders node before middle growth)
    (aside : Aside tree node middle after)
    (log : after.log = middle.log ++ remarks) (quiet : Quiet remarks) :
    Wanders node before after (growth ++ remarks) where
  log := by rw [log, wanders.log, List.append_assoc]
  nested := wanders.nested.append quiet.nested
  fades {hash} different settles := by
    rw [Blackboard.candidates_congr (aside.elsewhere different)]
    exact wanders.fades different (settles_append.mp settles).1

theorem visit {ref : NodeRef} (wanders : Wanders node before middle growth)
    (visits : Visits ref middle after visited) :
    Wanders node before after (growth ++ visited) where
  log := by rw [visits.log, wanders.log, List.append_assoc]
  nested := wanders.nested.append visits.nested
  fades different settles :=
    (visits.fades (settles_append.mp settles).2).trans
      (wanders.fades different (settles_append.mp settles).1)

end Wanders

theorem Flow.wanders
    (flow : Flow setting (fun tree node before _ after =>
      ∃ growth, Visits (tree.refTo node) before after growth)
      tree node before after) :
    ∃ growth, Wanders node before after growth := by
  induction flow with
  | start => exact ⟨[], .refl⟩
  | aside _ aside induction =>
      obtain ⟨growth, wanders⟩ := induction
      obtain ⟨remarks, log, quiet⟩ := aside.quiet
      exact ⟨growth ++ remarks, wanders.aside aside log quiet⟩
  | child _ _ _ ticked induction =>
      obtain ⟨growth, wanders⟩ := induction
      obtain ⟨visited, visits⟩ := ticked
      exact ⟨growth ++ visited, wanders.visit visits⟩
  | jump _ _ _ _ ticked induction =>
      obtain ⟨growth, wanders⟩ := induction
      obtain ⟨visited, visits⟩ := ticked
      exact ⟨growth ++ visited, { wanders.visit
        { visits with } with }⟩

theorem Refuses.visits (refuses : Refuses tree node before after) :
    Visits (tree.refTo node) before after [.refused (tree.refTo node)] where
  log := refuses.log
  nested := .entry rfl .nil
  own := rfl
  fades {hash} _ := by
    rw [Blackboard.candidates, refuses.states]
    exact .refl _

theorem Enters.quiet (enters : Enters tree node before after) :
    ∃ opening, after.log =
      before.log ++ .entered (tree.refTo node) :: opening ∧ Quiet opening := by
  refine ⟨_, enters.log, ?_⟩
  intro activity member
  split at member
  · cases member
  · rw [List.mem_singleton.mp member]
    rfl

theorem Leaves.quiet {status : Status}
    (leaves : Leaves tree node status before after) :
    ∃ closing, after.log =
      before.log ++ .finished (tree.refTo node) status :: closing ∧
      Quiet closing := by
  refine ⟨_, leaves.log, ?_⟩
  intro activity member
  split at member
  · cases member
  · rw [List.mem_singleton.mp member]
    rfl

/-- A tick within the budget adds one update to the journal. -/
theorem Wanders.visits {opened body : Pass α} {status : Status}
    {opening closing : List Activity}
    (wanders : Wanders node opened body growth)
    (enters : Enters tree node before opened)
    (openingLog : opened.log =
      before.log ++ .entered (tree.refTo node) :: opening)
    (openingQuiet : Quiet opening)
    (leaves : Leaves tree node status body after)
    (closingLog : after.log =
      body.log ++ .finished (tree.refTo node) status :: closing)
    (closingQuiet : Quiet closing) :
    Visits (tree.refTo node) before after
      (.entered (tree.refTo node) :: ((opening ++ growth) ++
        .finished (tree.refTo node) status :: closing)) where
  log := by
    rw [closingLog, wanders.log, openingLog]
    simp
  nested := .update (openingQuiet.nested.append wanders.nested)
    closingQuiet.nested
  own := by
    have inner := openingQuiet.nested.append wanders.nested
    rw [ownTicks, if_pos rfl, ownTicks_within inner, ownTicks,
      if_neg (by omega), closingQuiet.ownTicks_eq]
  fades {hash} settles := by
    obtain ⟨_, settles⟩ := settles_cons.mp settles
    obtain ⟨inner, settles⟩ := settles_append.mp settles
    by_cases same : hash = node.hash
    · have notRunning : status ≠ .running := by
        intro same
        subst same
        exact (settles_cons.mp settles).1 _ rfl same.symm
      obtain ⟨state, present, _, kind⟩ := leaves.here
      rw [same, Blackboard.candidates_eq present, kind, if_neg notRunning,
        candidates_closedKind]
      exact List.nil_sublist _
    · have fades := wanders.fades same (settles_append.mp inner).2
      rw [Blackboard.candidates_congr (enters.elsewhere same)] at fades
      rw [Blackboard.candidates_congr (leaves.elsewhere same)]
      exact fades

end Pass

open BehaviorTree.Pass

variable {α : Type} {setting : Setting α} {tree : Tree} {node : Node}
  {before after : Pass α}

/-- A tick adds one whole update to the journal, or that it was refused. -/
theorem PassM.visits_of_tick (wellFormed : setting.forest.WellFormed)
    {fuel : Nat} {status : Status} (located : setting.forest.Located tree node)
    (ended : tick setting fuel tree node before = some (status, after)) :
    ∃ growth, Visits (tree.refTo node) before after growth := by
  induction fuel generalizing tree node before status after with
  | zero => cases ended
  | succ fuel induction =>
      rcases tick_flow wellFormed located ended with
        ⟨_, refused⟩ | ⟨opened, body, enters, _, flow, leaves⟩
      · exact ⟨_, refused.visits⟩
      obtain ⟨growth, wanders⟩ := Flow.wanders
        (flow.mono fun ⟨found, _, ticked, _⟩ => induction found ticked)
      obtain ⟨opening, openingLog, openingQuiet⟩ := enters.quiet
      obtain ⟨closing, closingLog, closingQuiet⟩ := leaves.quiet
      exact ⟨_, wanders.visits enters openingLog openingQuiet leaves closingLog
        closingQuiet⟩

end BehaviorTree
