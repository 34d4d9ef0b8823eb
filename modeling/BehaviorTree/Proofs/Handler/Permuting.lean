import BehaviorTree.Proofs.Handler.Waiting
import BehaviorTree.Proofs.Pass.Permuting

/-!
# Permutations of Prob composites in a history

A Prob composite to which no way leads back goes through its children once in
each activation, over as many ticks as it takes, in an order that it draws.
-/

namespace BehaviorTree

open BehaviorTree.Pass

namespace Session

variable {α : Type} [Agent α] {home : Tree} {composite : Node}
  {session after : Session α} {events : List (Event α)}

/-- In any history without edits, the updates of a Prob composite to which no
way leads back are, in each activation that begins in it, parts of one
permutation of its children.  As long as the composite is running, it keeps
exactly those children that it has not passed, and once it is closed it keeps
none.  And a child that was running is ticked first, before anything is
drawn. -/
theorem permutations_of_run (sound : session.woodland.Sound)
    (composed : session.forest.Located home composite)
    (isProb : composite.kind = .probSequence ∨ composite.kind = .probSelector)
    (noReturn : ¬ session.forest.Leads (home.refTo composite)
      (home.refTo composite))
    (noEdit : ∀ event ∈ events, event.isEdit = false)
    (ran : session.run events = some after) :
    let diary := session.diaryAfter composite {} events
    let state := after.handler.stateFor home composite
    (∀ stint ∈ diary.stints, ∀ earlier ∈ stint.earlier,
      Permuted composite.children composite.kind.continueStatus earlier
        stint.replies stint.result) ∧
    (state.running = true → ∀ told ∈ diary.told,
      KeepsPool composite.children composite.kind.continueStatus told
        state.kind) ∧
    (diary.closed = true → ∃ weights, state.kind = .prob weights [] none) ∧
    ∀ {setting : Setting α} {fuel index : Nat} {visit : PassM.Visit α}
      {opened body : Pass α} {result : Status}
      {weights : Std.ExtTreeMap NodeHash Float} {pool : List (Nat × Float)},
      (opened.board.stateFor home composite).kind =
        .prob weights pool (some index) →
      PassM.update setting fuel visit home composite opened =
        some (result, body) →
      ∃ (ready : Pass α) (status : Status) (middle : Pass α),
        ready.log = opened.log ∧
        ready.board.stream = opened.board.stream ∧
        (ready.board.stateFor home composite).kind = .prob weights pool none ∧
        PassM.tickChild visit home composite index ready =
          some (status, middle) := by
  intro diary state
  have wellFormed : session.forest.WellFormed := sound.wellFormed
  have isScoped : session.forest.Scoped := sound.labelled.isScoped
  have distinct := (wellFormed.trees composed.inForest).children_nodup
    composed.inTree
  have awaits := awaits_run_anew sound composed noReturn
    (fun setting same => obeys_permutes isProb (same ▸ wellFormed)
      (same ▸ isScoped) (same ▸ composed))
    (proceeds_permutes isProb composite.kind.continueStatus_ne_running distinct)
    noEdit ran (keepsPool_begun isProb)
  refine ⟨fun stint member earlier known =>
      awaits.lawful stint member earlier known trivial,
    fun running told known => awaits.waiting running told known trivial,
    fun closed => ?_, resumes_without_draw isProb⟩
  obtain ⟨weights, pool, pending, isKind⟩ :=
    exists_prob_of_fits isProb (after.handler.fits_stateFor home composite)
  have cleared := awaits.cleared closed
  rw [isKind] at cleared
  exact ⟨weights, isKind.trans cleared.symm⟩

/-- The gate and the yard are visited, and the gatekeeper is asked once he is not
busy, in any order. -/
def rounds : Subtree :=
  { name := "rounds", hash := some ⟨"rounds-1"⟩, kind := .probSequence
    children :=
      [{ name := "gate", hash := some ⟨"gate-1"⟩, kind := .echoLeaf "gate" true },
       { name := "wait", hash := some ⟨"wait-1"⟩, kind := .allocator ["busy"]
         children :=
           [{ name := "ask", hash := some ⟨"ask-1"⟩
              kind := .echoLeaf "ask" true }] },
       { name := "yard", hash := some ⟨"yard-1"⟩
         kind := .echoLeaf "yard" true }] }

/-- The rounds take two ticks, of which the second begins with the wait and ends
with the visit that was left. -/
theorem rounds_permuted :
    ∃ (session after : Session UInt64) (home : Tree) (trip : Node)
      (first last : Stint),
      (start ({} : Behaviors UInt64) {}).run (beat rounds) = some session ∧
      session.forest.Located home trip ∧ trip.kind = .probSequence ∧
      session.run walk = some after ∧
      (session.diaryAfter trip {} walk).stints = [first, last] ∧
      first.result = .running ∧ last.result = .success ∧
      Permuted trip.children .success first.replies last.replies .success ∧
      ∃ weights,
        (after.handler.stateFor home trip).kind = .prob weights [] none := by
  have checked : ((start ({} : Behaviors UInt64) {}).run (beat rounds)).any
      (fun session =>
        (session.forest.get? ⟨1⟩).any fun home =>
        home.nodes[(⟨"rounds-1"⟩ : NodeHash)]?.any fun trip =>
        (session.run walk).any fun _ =>
          session.forest.ascends && decide (trip.kind = .probSequence) &&
            walk.all (!·.isEdit) && (session.diaryAfter trip {} walk).tookTwo) =
      true := by
    decide +kernel
  obtain ⟨session, home, trip, ran, sound, located, passed⟩ :=
    exists_located_of_run Woodland.sound_empty checked
  obtain ⟨after, ranOn, passed⟩ := (Option.any_eq_true _ _).mp passed
  simp only [Bool.and_eq_true, decide_eq_true_eq, List.all_eq_true,
    Bool.not_eq_true'] at passed
  obtain ⟨⟨⟨ascends, isProb⟩, noEdit⟩, tookTwo⟩ := passed
  obtain ⟨first, last, two, waits, resumes, succeeds, closed⟩ :=
    Diary.exists_of_tookTwo tookTwo
  obtain ⟨lawful, _, closes, _⟩ := permutations_of_run sound located (.inl isProb)
    (Forest.noReturn_of_ascends sound.wellFormed sound.labelled.isScoped ascends
      located) noEdit ranOn
  have permuted := lawful last (by rw [two]; simp) _ resumes
  rw [isProb, succeeds] at permuted
  exact ⟨session, after, home, trip, first, last, ran, located, isProb, ranOn,
    two, waits, succeeds, permuted, closes closed⟩

end Session

end BehaviorTree
