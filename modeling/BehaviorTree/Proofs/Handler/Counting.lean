import BehaviorTree.Proofs.Handler.Observing
import BehaviorTree.Proofs.Pass.Counting

/-!
# Counts of Repeaters in a history

As long as a Repeater keeps its child and the number that it is to repeat, edits
elsewhere, setups, abandonments and errors do not touch its count.  It succeeds
each time exactly that many results of the child have been counted.
-/

namespace BehaviorTree

open BehaviorTree.Pass

variable {α : Type} {home : Tree} {repeater : Node} {repeats : UInt32}
  {child : NodeHash} {diary : Diary}

/-- A node stands in a forest under the hash, with the kind and the children of
another, and no way leads back to it. -/
def Forest.Hosts (forest : Forest) (repeater : Node) : Prop :=
  ∃ home node, forest.Located home node ∧ node.hash = repeater.hash ∧
    node.kind = repeater.kind ∧ node.children = repeater.children ∧
    ¬ forest.Leads (home.refTo node) (home.refTo node)

section Same

variable {node : Node} (sameHash : node.hash = repeater.hash)
include sameHash

theorem Diary.read_congr (sameChildren : node.children = repeater.children)
    (log : List Activity) : diary.read node log = diary.read repeater log := by
  have same : ∀ diary : Diary, diary.note node = diary.note repeater := by
    intro diary
    funext activity
    cases activity <;> simp only [Diary.note, sameHash, sameChildren]
  unfold Diary.read
  congr 1
  funext diary
  exact same diary

theorem Session.diaryAt_congr [Agent α]
    (sameChildren : node.children = repeater.children) (session : Session α)
    (event : Session.Event α) :
    session.diaryAt node diary event = session.diaryAt repeater diary event := by
  cases event with
  | tick fuel agent => exact Diary.read_congr sameHash sameChildren _
  | _ => rfl

/-- All nodes with the hash of a Repeater execute with the same count. -/
theorem Handler.kind_stateFor_congr (sameKind : node.kind = repeater.kind)
    (isRepeater : repeater.kind = .repeater repeats) (handler : Handler α)
    (other : Tree) :
    (handler.stateFor other node).kind =
      (handler.stateFor home repeater).kind := by
  have fresh : (NodeState.forNode other node).kind =
      (NodeState.forNode home repeater).kind := by
    simp only [NodeState.forNode, NodeState.initialKind, sameKind, isRepeater]
  unfold Handler.stateFor Blackboard.stateFor
  cases handler.blackboard with
  | none => exact fresh
  | some board =>
      dsimp only
      rw [sameHash, sameKind]
      cases board.states[repeater.hash]? with
      | none => exact fresh
      | some state =>
          dsimp only
          split
          · rfl
          · exact fresh

end Same

/-- A Repeater that has not counted yet executes with an empty count. -/
theorem Handler.kind_stateFor_of_unused {handler : Handler α}
    (isRepeater : repeater.kind = .repeater repeats)
    (unused : ∀ kind ∈ handler.kindAt repeater.hash,
      kind = .repeater repeats 0) (home : Tree) :
    (handler.stateFor home repeater).kind = .repeater repeats 0 := by
  have fresh : (NodeState.forNode home repeater).kind = .repeater repeats 0 := by
    simp only [NodeState.forNode, NodeState.initialKind, isRepeater]
  unfold Handler.kindAt Blackboard.kindAt at unused
  unfold Handler.stateFor Blackboard.stateFor
  cases holds : handler.blackboard with
  | none => exact fresh
  | some board =>
      rw [holds, Option.bind_some] at unused
      dsimp only
      cases present : board.states[repeater.hash]? with
      | none => exact fresh
      | some state =>
          rw [present] at unused
          dsimp only
          split
          · exact unused state.kind rfl
          · exact fresh

namespace Session

variable [Agent α] {session after : Session α} {event : Event α}
  {events : List (Event α)}

/-- What is known of a Repeater that stands in the forest. -/
def KeepsTally (session : Session α) (repeats : UInt32) (child : NodeHash)
    (repeater : Node) (diary : Diary) : Prop :=
  ∀ home node, session.forest.Located home node →
    node.hash = repeater.hash → node.kind = repeater.kind →
    session.handler.Maintains (KeepsCount repeats child) home node diary

theorem keepsTally_step (sound : session.woodland.Sound)
    (isRepeater : repeater.kind = .repeater repeats)
    (only : repeater.children = [child])
    (hosts : session.forest.Hosts repeater)
    (keeps : session.KeepsTally repeats child repeater diary)
    (stepped : session.step event = some after) :
    after.KeepsTally repeats child repeater
      (session.diaryAt repeater diary event) := by
  have wellFormed : session.forest.WellFormed := sound.wellFormed
  have isScoped : session.forest.Scoped := sound.labelled.isScoped
  obtain ⟨home, node, located, sameHash, sameKind, sameChildren, noReturn⟩ :=
    hosts
  have known := keeps home node located sameHash sameKind
  rw [← sameKind] at isRepeater
  rw [← sameChildren] at only
  intro other found foundLocated foundHash foundKind
  have kept : after.handler.Maintains (KeepsCount repeats child)
      home node (session.diaryAt repeater diary event) := by
    cases isEdit : event.isEdit with
    | true =>
        cases event with
        | edit step =>
            obtain ⟨woodland, _, rfl⟩ := Option.map_eq_some_iff.mp stepped
            exact known
        | _ => cases isEdit
    | false =>
        rw [← diaryAt_congr sameHash sameChildren]
        refine maintains_step sound located ?_
          (discipline_counts isRepeater only)
          (fun _ => refreshes_counts isRepeater) isEdit known stepped
        rintro setting same
        rw [← same] at wellFormed isScoped located noReturn
        exact obeys_counts wellFormed isScoped located
          (fun _ => Forest.hash_ne_of_leads wellFormed isScoped located noReturn)
          isRepeater
  refine ⟨kept.quiet, kept.held.tallied, ?_⟩
  rw [Handler.kind_stateFor_congr (foundHash.trans sameHash.symm)
    (foundKind.trans sameKind.symm) isRepeater]
  exact kept.held.counts

/-- What is known of a Repeater holds after any history in which it stands. -/
theorem keepsTally_run (sound : session.woodland.Sound)
    (isRepeater : repeater.kind = .repeater repeats)
    (only : repeater.children = [child])
    (stands : ∀ earlier later reached, events = earlier ++ later →
      session.run earlier = some reached → reached.forest.Hosts repeater)
    (keeps : session.KeepsTally repeats child repeater diary)
    (ran : session.run events = some after) :
    after.KeepsTally repeats child repeater
      (session.diaryAfter repeater diary events) := by
  induction events generalizing session diary with
  | nil => exact Option.some.inj ran ▸ keeps
  | cons first rest induction =>
      obtain ⟨middle, stepped, ran⟩ := Option.bind_eq_some_iff.mp ran
      rw [diaryAfter, stepped]
      refine induction (sound_step sound stepped) ?_
        (keepsTally_step sound isRepeater only (stands [] _ session rfl rfl) keeps
          stepped) ran
      intro earlier later reached split reaches
      refine stands (first :: earlier) later reached (by rw [split]; rfl) ?_
      rw [run, stepped]
      exact reaches

/-- In any history in which a Repeater that has not counted yet keeps its child
and its number of repeats, its count is that of the results counted since it
last succeeded.  It succeeds exactly in the updates that begin with a full
count, without ticking the child, and what is not counted it passes on.  So
between two successes, or before the first one, exactly as many results are
counted as are to be repeated. -/
theorem repeats_of_run (sound : session.woodland.Sound)
    (isRepeater : repeater.kind = .repeater repeats)
    (only : repeater.children = [child])
    (begins : ∀ kind ∈ session.handler.kindAt repeater.hash,
      kind = .repeater repeats 0)
    (stands : ∀ earlier later reached, events = earlier ++ later →
      session.run earlier = some reached → reached.forest.Hosts repeater)
    (ran : session.run events = some after) :
    let stints := (session.diaryAfter repeater {} events).stints
    (∀ {home : Tree} {node : Node}, after.forest.Located home node →
      node.hash = repeater.hash →
      ∃ count, (after.handler.stateFor home node).kind =
          .repeater repeats count ∧
        count ≤ repeats ∧ count.toNat = tally stints) ∧
    (∀ earlier stint later, stints = earlier ++ stint :: later →
      tally earlier ≤ repeats.toNat ∧
      (stint.result = .success ↔ tally earlier = repeats.toNat) ∧
      (stint.result = .success → stint.replies = []) ∧
      (stint.result ≠ .success → ∃ status, stint.replies = [(child, status)] ∧
        stint.result = if status.IsCounted then .running else status)) ∧
    ∀ earlier middle last later, stints = earlier ++ middle ++ last :: later →
      (∀ stint ∈ earlier.getLast?, stint.result = .success) →
      (∀ stint ∈ middle, stint.result ≠ .success) → last.result = .success →
      Replies.counted (middle.flatMap (·.replies)) = repeats.toNat := by
  intro stints
  have starts : session.KeepsTally repeats child repeater {} := by
    intro other node _ sameHash sameKind
    rw [← sameHash] at begins
    rw [← sameKind] at isRepeater
    exact ⟨rfl, Throughout.nil, 0,
      Handler.kind_stateFor_of_unused isRepeater begins other, UInt32.zero_le,
      rfl⟩
  have keeps := keepsTally_run sound isRepeater only stands starts ran
  have soundAfter := sound_run sound ran
  obtain ⟨last, node, isLast, sameHash, sameKind, _⟩ :=
    stands events [] after (List.append_nil _).symm ran
  have held := (keeps last node isLast sameHash sameKind).held
  refine ⟨fun {home found} isFound foundHash => ?_, ?_, ?_⟩
  · obtain ⟨rfl, rfl⟩ := soundAfter.labelled.isScoped.unique isLast isFound
      (foundHash.trans sameHash.symm)
    exact held.counts
  · intro earlier stint later split
    have repetition := held.tallied earlier stint later split
    refine ⟨repetition.le, repetition.result_eq_success_iff, ?_, ?_⟩
    · intro succeeds
      exact repetition.replies_eq_nil succeeds
    · exact repetition.visits_of_ne
  · intro earlier middle last later split anew unsuccessful succeeds
    exact held.tallied.counted_eq split anew unsuccessful succeeds

/-- A watchman takes his post, where he rests by sitting twice. -/
def post : List (Event UInt64) :=
  [.edit (.plant { name := "watch", chosen := some ⟨1⟩ }),
   .edit (.edit ⟨1⟩ (.add (.detached Handler.watch)
     (Tree.build ⟨1⟩ "watch" {}).root none false))]

/-- After an alarm, in which his rest is abandoned, the watchman returns to his
post. -/
def vigil : List (Event UInt64) :=
  [.setup 0 (some (.byId ⟨1⟩)) false, .tick 20 0, .tick 20 1, .tick 20 1,
   .setup 0 none false, .tick 20 0, .tick 20 0]

/-- The watchman has rested once he has sat twice, once before the alarm and
once after it. -/
theorem watchman_rested :
    ∃ (session after : Session UInt64) (home : Tree) (rest : Node)
      (earlier : List Stint) (last : Stint),
      (start Handler.watchman.behaviors {}).run post = some session ∧
      session.forest.Located home rest ∧ rest.kind = .repeater 2 ∧
      session.run vigil = some after ∧
      (session.diaryAfter rest {} vigil).stints = earlier ++ [last] ∧
      last.result = .success ∧
      Replies.counted (earlier.flatMap (·.replies)) = 2 := by
  have checked : ((start Handler.watchman.behaviors {}).run post).any
      (fun session =>
        (session.forest.get? ⟨1⟩).any fun home =>
        home.nodes[(⟨"rest-1"⟩ : NodeHash)]?.any fun rest =>
        (session.run vigil).any fun _ =>
          let stints := (session.diaryAfter rest {} vigil).stints
          session.forest.ascends && session.handler.blackboard.isNone &&
            vigil.all (!·.isEdit) && decide (rest.kind = .repeater 2) &&
            decide (rest.children = [⟨"sit-1"⟩]) &&
            stints.dropLast.all (·.result ≠ .success) &&
            stints.getLast?.any (·.result = .success)) = true := by
    decide +kernel
  obtain ⟨session, home, rest, ran, sound, located, passed⟩ :=
    exists_located_of_run Woodland.sound_empty checked
  obtain ⟨after, ranOn, passed⟩ := (Option.any_eq_true _ _).mp passed
  simp only [Bool.and_eq_true, decide_eq_true_eq, List.all_eq_true,
    Option.isNone_iff_eq_none, Bool.not_eq_true', Option.any_eq_true] at passed
  obtain ⟨⟨⟨⟨⟨⟨ascends, unbound⟩, noEdit⟩, isRepeater⟩, only⟩,
    unsuccessful⟩, last, isLast, succeeds⟩ := passed
  have wellFormed : session.forest.WellFormed := sound.wellFormed
  have unused : ∀ kind ∈ session.handler.kindAt rest.hash,
      kind = .repeater 2 0 := by
    intro kind isKind
    rw [Handler.kindAt, unbound] at isKind
    cases isKind
  have stands : ∀ earlier later reached, vigil = earlier ++ later →
      session.run earlier = some reached → reached.forest.Hosts rest := by
    intro earlier later reached split reaches
    rw [forest_run (fun event member => noEdit event
      (split ▸ List.mem_append_left _ member)) reaches]
    exact ⟨home, rest, located, rfl, rfl, rfl, Forest.noReturn_of_ascends
      wellFormed sound.labelled.isScoped ascends located⟩
  obtain ⟨_, _, exact⟩ :=
    repeats_of_run sound isRepeater only unused stands ranOn
  have split := (List.dropLast_append_getLast? last isLast).symm
  have anew : ∀ stint ∈ ([] : List Stint).getLast?, stint.result = .success := by
    intro stint none
    cases none
  exact ⟨session, after, home, rest, _, last, ran, located, isRepeater, ranOn,
    split, succeeds, exact [] _ last [] split anew unsuccessful succeeds⟩

end Session

end BehaviorTree
