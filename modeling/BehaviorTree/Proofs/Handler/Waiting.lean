import BehaviorTree.Proofs.Handler.Observing
import BehaviorTree.Proofs.Pass.Waiting

/-!
# Composites that wait in a history

If no way leads from a composite back to it, a law of its activations holds in
any history without edits.  Setups in it do not matter to a composite that
begins each activation anew.
-/

namespace BehaviorTree

open BehaviorTree.Pass

namespace Session

variable {α : Type} [Agent α] {home : Tree} {composite : Node}
  {conduct : Conduct} {law : ActivationLaw} {waits : Waits}
  {proper : Bool → Prop} {session after : Session α} {events : List (Event α)}
  (sound : session.woodland.Sound)
  (composed : session.forest.Located home composite)
  (noReturn : ¬ session.forest.Leads (home.refTo composite)
    (home.refTo composite))
  (obeys : ∀ setting : Setting α, setting.forest = session.forest →
    (∀ other, setting.forest.Leads (home.refTo composite) other →
      other.hash ≠ composite.hash) →
    Obeys setting home composite conduct)
  (proceeds : Proceeds home composite conduct law waits)
  (noEdit : ∀ event ∈ events, event.isEdit = false)
  (ran : session.run events = some after)
include sound composed noReturn obeys proceeds noEdit ran

theorem awaits_run
    (begins : (session.handler.stateFor home composite).running = false →
      proper false →
      waits [] (begunKind home composite false
        (session.handler.stateFor home composite).kind))
    (refreshes : ∀ event ∈ events, event.isSetup = true →
      Refreshes home composite (Awaits home composite law waits proper)) :
    Awaits home composite law waits proper
      (session.diaryAfter composite {} events)
      (after.handler.stateFor home composite).running
      (after.handler.stateFor home composite).kind := by
  have starts : session.handler.Maintains
      (Awaits home composite law waits proper) home composite {} :=
    ⟨rfl, .start begins⟩
  refine (maintains_run sound composed (fun setting same => ?_)
    proceeds.discipline refreshes noEdit starts ran).held
  refine obeys setting same fun other leads => ?_
  rw [same] at leads
  exact Forest.hash_ne_of_leads sound.wellFormed sound.labelled.isScoped composed
    noReturn leads

theorem awaits_run_anew
    (anew : ∀ {kind : KindState}, kind.fits composite.kind = true →
      waits [] (begunKind home composite false kind)) :
    Awaits home composite law waits (fun _ => True)
      (session.diaryAfter composite {} events)
      (after.handler.stateFor home composite).running
      (after.handler.stateFor home composite).kind :=
  awaits_run sound composed noReturn obeys proceeds noEdit ran
    (fun _ _ => anew (session.handler.fits_stateFor home composite))
    fun _ _ _ => refreshes_awaits anew

end Session

end BehaviorTree
