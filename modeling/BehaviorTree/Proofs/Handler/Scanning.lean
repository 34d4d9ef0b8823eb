import BehaviorTree.Proofs.Handler.Resuming
import BehaviorTree.Proofs.Handler.Waiting
import BehaviorTree.Proofs.Pass.Scanning

/-!
# Scans of Mem composites in a history

A Mem composite to which no way leads back scans its children once in each
activation, over as many ticks as it takes.  The activation begins with the
first child if another one was closed before it, or if the composite was at rest
where the history begins.
-/

namespace BehaviorTree

open BehaviorTree.Pass

variable {α : Type} {home : Tree} {composite : Node}

namespace Session

variable {session : Session α}

theorem kind_stateFor_of_rests (isMem : composite.kind.IsMem)
    (atRest : session.Rests composite.hash)
    (quiet : (session.handler.stateFor home composite).running = false) :
    (session.handler.stateFor home composite).kind = .mem 0 := by
  obtain ⟨position, isKind⟩ := KindState.exists_mem_of_fits isMem
    (session.handler.fits_stateFor home composite)
  suffices position = 0 by rw [isKind, this]
  rw [Handler.stateFor] at isKind quiet
  cases holds : session.handler.blackboard with
  | none =>
      rw [holds] at isKind
      exact Blackboard.eq_zero_of_forNode isKind
  | some board =>
      rw [holds] at isKind quiet
      exact (atRest board holds).stateFor quiet isKind

variable [Agent α] {after : Session α} {events : List (Event α)}

/-- In any history without edits and setups, the updates of a Mem composite to
which no way leads back are, in each activation that begins with the first
child, parts of one scan of its children.  Once the activation is closed, be it
abandoned or not, the first child comes next.  And an update from the first
child on comes to a result other than `running` if and only if the plain
composite does, by the same ticks. -/
theorem scans_of_run (sound : session.woodland.Sound)
    (composed : session.forest.Located home composite)
    (isMem : composite.kind.IsMem)
    (noReturn : ¬ session.forest.Leads (home.refTo composite)
      (home.refTo composite))
    (noEdit : ∀ event ∈ events, event.isEdit = false)
    (noSetup : ∀ event ∈ events, event.isSetup = false)
    (ran : session.run events = some after) :
    let diary := session.diaryAfter composite {} events
    (∀ stint ∈ diary.stints, ∀ earlier ∈ stint.earlier,
      stint.fresh = true ∨ session.Rests composite.hash →
      Scanned composite.children composite.kind.continueStatus earlier
        stint.replies stint.result) ∧
    (diary.closed = true →
      (after.handler.stateFor home composite).kind = .mem 0) ∧
    ∀ {setting : Setting α} {fuel : Nat} {visit : PassM.Visit α}
      {opened body : Pass α} {result : Status},
      setting.forest = session.forest → opened.board.fits composite = true →
      (opened.board.stateFor home composite).kind = .mem 0 →
      result ≠ .running →
      (PassM.update setting fuel visit home composite opened =
          some (result, body) ↔
        PassM.update setting fuel visit home
            { composite with kind := composite.kind.plain } opened =
          some (result, body)) := by
  intro diary
  have wellFormed : session.forest.WellFormed := sound.wellFormed
  have isScoped : session.forest.Scoped := sound.labelled.isScoped
  have distinct := (wellFormed.trees composed.inForest).children_nodup
    composed.inTree
  let proper (fresh : Bool) : Prop :=
    fresh = true ∨ session.Rests composite.hash
  have begins : (session.handler.stateFor home composite).running = false →
      proper false →
      KeepsPlace composite.children composite.kind.continueStatus []
        (begunKind home composite false
          (session.handler.stateFor home composite).kind) := by
    intro quiet isProper
    rw [kind_stateFor_of_rests isMem (isProper.resolve_left nofun) quiet]
    exact keepsPlace_begun _
  have awaits := awaits_run sound composed noReturn
    (fun setting same apart => obeys_resumes (same ▸ wellFormed)
      (same ▸ isScoped) (same ▸ composed) apart isMem)
    (proceeds_resumes isMem composite.kind.continueStatus_ne_running distinct)
    noEdit ran begins fun event member isSetup => by
      rw [noSetup event member] at isSetup
      cases isSetup
  refine ⟨awaits.lawful, fun closed => ?_, fun same fits first settled => ?_⟩
  · obtain ⟨position, isKind⟩ := KindState.exists_mem_of_fits isMem
      (after.handler.fits_stateFor home composite)
    have cleared := awaits.cleared closed
    rw [isKind] at cleared ⊢
    exact cleared.symm
  · exact update_eq_plain (same ▸ wellFormed) (same ▸ composed) isMem fits first
      settled

/-- From the setup on the guard works in one activation, over two ticks: he
begins, waits, and waits again until he is done. -/
theorem work_scanned :
    ∃ (session after : Session UInt64) (home : Tree) (work : Node)
      (first last : Stint),
      guard.run (dawn.take 3) = some session ∧
      session.forest.Located home work ∧ work.kind = .memSequence ∧
      session.run (dawn.drop 3 ++ dusk) = some after ∧
      (session.diaryAfter work {} (dawn.drop 3 ++ dusk)).stints = [first, last] ∧
      first.result = .running ∧ last.result = .success ∧
      Scanned work.children .success first.replies last.replies .success ∧
      (after.handler.stateFor home work).kind = .mem 0 := by
  have checked : (guard.run (dawn.take 3)).any (fun session =>
      (session.forest.get? ⟨1⟩).any fun home =>
      home.nodes[(⟨"work-1"⟩ : NodeHash)]?.any fun work =>
      (session.run (dawn.drop 3 ++ dusk)).any fun _ =>
        session.forest.ascends && decide (work.kind = .memSequence) &&
          (dawn.drop 3 ++ dusk).all (fun event =>
            !event.isEdit && !event.isSetup) &&
          guard.spares work.hash (dawn.take 3) &&
          (session.diaryAfter work {} (dawn.drop 3 ++ dusk)).tookTwo) = true := by
    decide +kernel
  obtain ⟨session, home, work, ran, sound, located, passed⟩ :=
    exists_located_of_run Woodland.sound_empty checked
  obtain ⟨after, ranOn, passed⟩ := (Option.any_eq_true _ _).mp passed
  simp only [Bool.and_eq_true, decide_eq_true_eq, List.all_eq_true,
    Bool.not_eq_true'] at passed
  obtain ⟨⟨⟨⟨ascends, isMem⟩, ticksOnly⟩, spared⟩, tookTwo⟩ := passed
  obtain ⟨first, last, two, waits, resumes, succeeds, closed⟩ :=
    Diary.exists_of_tookTwo tookTwo
  have unbound : guard.Rests work.hash := by
    intro board holds
    cases holds
  have atRest := rests_run Woodland.sound_empty unbound spared ran
  obtain ⟨lawful, closes, _⟩ := scans_of_run sound located (.inl isMem)
    (Forest.noReturn_of_ascends sound.wellFormed sound.labelled.isScoped ascends
      located)
    (fun event member => (ticksOnly event member).1)
    (fun event member => (ticksOnly event member).2) ranOn
  have scanned := lawful last (by rw [two]; simp) _ resumes (.inr atRest)
  rw [isMem, succeeds] at scanned
  exact ⟨session, after, home, work, first, last, ran, located, isMem, ranOn,
    two, waits, succeeds, scanned, closes closed⟩

end Session

end BehaviorTree
