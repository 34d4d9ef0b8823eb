import BehaviorTree.Proofs.Handler.Waiting
import BehaviorTree.Proofs.Pass.Gathering

/-!
# Results of Parallels in a history

A Parallel to which no way leads back decides by the latest results of its
children in the activation, over as many ticks as it takes.
-/

namespace BehaviorTree

open BehaviorTree.Pass

namespace Session

variable {α : Type} [Agent α] {home : Tree} {composite : Node}
  {spec : ParallelSpec} {session after : Session α} {events : List (Event α)}

/-- In any history without edits, an update of a Parallel to which no way leads
back visits, in each activation that begins in it, the children that have not
come to an end, until the latest results decide it.  As long as the Parallel is
running it keeps these results, and once it is closed it keeps none. -/
theorem results_of_run (sound : session.woodland.Sound)
    (composed : session.forest.Located home composite)
    (isParallel : composite.kind = .parallel spec)
    (noReturn : ¬ session.forest.Leads (home.refTo composite)
      (home.refTo composite))
    (noEdit : ∀ event ∈ events, event.isEdit = false)
    (ran : session.run events = some after) :
    let diary := session.diaryAfter composite {} events
    let state := after.handler.stateFor home composite
    (∀ stint ∈ diary.stints, ∀ earlier ∈ stint.earlier,
      Gathered composite.children spec earlier stint.replies stint.result) ∧
    (state.running = true → ∀ told ∈ diary.told, state.kind =
      .parallel (composite.children.map (Replies.latest told)) spec) ∧
    (diary.closed = true → ∃ former, state.kind = .parallel [] former) := by
  intro diary state
  have wellFormed : session.forest.WellFormed := sound.wellFormed
  have isScoped : session.forest.Scoped := sound.labelled.isScoped
  have distinct := (wellFormed.trees composed.inForest).children_nodup
    composed.inTree
  have awaits := awaits_run_anew sound composed noReturn
    (fun setting same => obeys_attends isParallel (same ▸ wellFormed)
      (same ▸ isScoped) (same ▸ composed))
    (proceeds_attends isParallel distinct) noEdit ran
    (keepsResults_begun isParallel)
  refine ⟨fun stint member earlier known =>
      awaits.lawful stint member earlier known trivial,
    fun running told known => (awaits.waiting running told known trivial).1,
    fun closed => ?_⟩
  obtain ⟨results, former, isKind⟩ := exists_parallel_of_fits isParallel
    (after.handler.fits_stateFor home composite)
  have cleared := awaits.cleared closed
  rw [isKind] at cleared
  exact ⟨former, isKind.trans cleared.symm⟩

/-- Two of the gate, the gatekeeper and the yard are to be visited, at the same
time. -/
def posts : Subtree :=
  { name := "posts", hash := some ⟨"posts-1"⟩
    kind := .parallel { requiredSuccesses := some 2 }
    children :=
      [{ name := "gate", hash := some ⟨"gate-1"⟩, kind := .echoLeaf "gate" true },
       { name := "wait", hash := some ⟨"wait-1"⟩, kind := .allocator ["busy"]
         children :=
           [{ name := "ask", hash := some ⟨"ask-1"⟩
              kind := .echoLeaf "ask" true }] },
       { name := "yard", hash := some ⟨"yard-1"⟩
         kind := .echoLeaf "yard" false }] }

/-- The posts take two ticks, and in the second only the gatekeeper is asked
again. -/
theorem posts_gathered :
    ∃ (session after : Session UInt64) (home : Tree) (trip : Node)
      (first last : Stint),
      (start ({} : Behaviors UInt64) {}).run (beat posts) = some session ∧
      session.forest.Located home trip ∧
      trip.kind = .parallel { requiredSuccesses := some 2 } ∧
      session.run walk = some after ∧
      (session.diaryAfter trip {} walk).stints = [first, last] ∧
      first.result = .running ∧ last.result = .success ∧
      Gathered trip.children { requiredSuccesses := some 2 } first.replies
        last.replies .success ∧
      ∃ former,
        (after.handler.stateFor home trip).kind = .parallel [] former := by
  have checked : ((start ({} : Behaviors UInt64) {}).run (beat posts)).any
      (fun session =>
        (session.forest.get? ⟨1⟩).any fun home =>
        home.nodes[(⟨"posts-1"⟩ : NodeHash)]?.any fun trip =>
        (session.run walk).any fun _ =>
          session.forest.ascends &&
            decide (trip.kind = .parallel { requiredSuccesses := some 2 }) &&
            walk.all (!·.isEdit) && (session.diaryAfter trip {} walk).tookTwo) =
      true := by
    decide +kernel
  obtain ⟨session, home, trip, ran, sound, located, passed⟩ :=
    exists_located_of_run Woodland.sound_empty checked
  obtain ⟨after, ranOn, passed⟩ := (Option.any_eq_true _ _).mp passed
  simp only [Bool.and_eq_true, decide_eq_true_eq, List.all_eq_true,
    Bool.not_eq_true'] at passed
  obtain ⟨⟨⟨ascends, isParallel⟩, noEdit⟩, tookTwo⟩ := passed
  obtain ⟨first, last, two, waits, resumes, succeeds, closed⟩ :=
    Diary.exists_of_tookTwo tookTwo
  obtain ⟨lawful, _, closes⟩ := results_of_run sound located isParallel
    (Forest.noReturn_of_ascends sound.wellFormed sound.labelled.isScoped ascends
      located) noEdit ranOn
  have gathered := lawful last (by rw [two]; simp) _ resumes
  rw [succeeds] at gathered
  exact ⟨session, after, home, trip, first, last, ran, located, isParallel,
    ranOn, two, waits, succeeds, gathered, closes closed⟩

end Session

end BehaviorTree
