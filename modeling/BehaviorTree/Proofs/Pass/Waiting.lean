import BehaviorTree.Proofs.Pass.Observing

/-!
# Composites that wait

Between two updates of an activation, what a composite has to remember of the
first one waits in its state, and once the activation is closed nothing is left
of it.  So a law of single updates, from what waits on, becomes one of whole
activations.
-/

namespace BehaviorTree

open BehaviorTree.Pass

theorem closedKind_closedKind (kind : KindState) :
    closedKind (closedKind kind) = closedKind kind := by
  cases kind <;> rfl

theorem closedKind_syncKind (state : KindState) (kind : NodeKind) :
    closedKind (NodeState.syncKind state kind) =
      NodeState.syncKind (closedKind state) kind := by
  cases state with
  | limiter limit remaining =>
      cases kind with
      | limiter configured =>
          change closedKind (NodeState.syncKind _ _) =
            NodeState.syncKind (.limiter limit remaining) (.limiter configured)
          rw [NodeState.syncKind_limiter]
          rfl
      | _ => rfl
  | _ => cases kind <;> rfl

/-- The replies to earlier updates of an activation, those to one more update,
and its result. -/
abbrev ActivationLaw : Type := Replies → Replies → Status → Prop

/-- What the state keeps of the replies to the updates of an activation. -/
abbrev Waits : Type := Replies → KindState → Prop

/-- Updates keep to a law, given what waits for them, and leave as much. -/
structure Proceeds (home : Tree) (composite : Node) (conduct : Conduct)
    (law : ActivationLaw) (waits : Waits) : Prop where
  update : ∀ {told replies : Replies} {result : Status}
    {kind changed : KindState},
    waits told kind → conduct kind replies result changed →
    law told replies result ∧
      (result = .running → waits (told ++ replies) changed)
  anew : ∀ {kind : KindState}, kind.fits composite.kind = true →
    waits [] (begunKind home composite false (closedKind kind))

/-- The law holds of the updates of all activations, of those after another one
was closed at least, and unless one is under way, nothing is left of it. -/
structure Awaits (home : Tree) (composite : Node) (law : ActivationLaw)
    (waits : Waits) (proper : Bool → Prop) (diary : Diary) (running : Bool)
    (kind : KindState) : Prop where
  lawful : ∀ stint ∈ diary.stints, ∀ earlier ∈ stint.earlier,
    proper stint.fresh → law earlier stint.replies stint.result
  awake : running = true → diary.closed = false
  cleared : diary.closed = true → closedKind kind = kind
  begins : running = false → proper diary.closed →
    waits [] (begunKind home composite false kind)
  waiting : running = true → ∀ told ∈ diary.told, proper diary.fresh →
    waits told kind

variable {home : Tree} {composite : Node} {conduct : Conduct}
  {law : ActivationLaw} {waits : Waits} {proper : Bool → Prop} {diary : Diary}
  {running : Bool} {kind : KindState}

namespace Awaits

theorem start
    (begins : running = false → proper false →
      waits [] (begunKind home composite false kind)) :
    Awaits home composite law waits proper {} running kind where
  lawful := nofun
  awake _ := rfl
  cleared := nofun
  begins := begins
  waiting _ := nofun

theorem begun (awaits : Awaits home composite law waits proper diary running kind) :
    ∀ told ∈ (diary.begun running).told, proper (diary.begun running).fresh →
      waits told (begunKind home composite running kind) := by
  cases running with
  | true => exact awaits.waiting rfl
  | false =>
      rintro _ ⟨⟩ isProper
      exact awaits.begins rfl isProper

theorem closed_begun
    (awaits : Awaits home composite law waits proper diary running kind) :
    (diary.begun running).closed = false := by
  cases running with
  | true => exact awaits.awake rfl
  | false => rfl

end Awaits

/-- A law of single updates holds of whole activations. -/
theorem Proceeds.discipline (proceeds : Proceeds home composite conduct law waits) :
    Discipline home composite conduct
      (Awaits home composite law waits proper) where
  update := by
    intro diary running kind changed replies result awaits moved fits
    have lawful : ∀ stint ∈ (diary.after running replies result).stints,
        ∀ earlier ∈ stint.earlier, proper stint.fresh →
        law earlier stint.replies stint.result :=
      diary.forall_stints_after awaits.lawful fun told isTold isProper =>
        (proceeds.update (awaits.begun told isTold isProper) moved).1
    by_cases goesOn : result = .running
    · subst goesOn
      have stillOpen : (diary.after running replies .running).closed = false := by
        rw [Diary.closed_after, if_pos rfl, awaits.closed_begun]
      refine ⟨lawful, fun _ => stillOpen, fun closed => ?_, nofun,
        fun _ told isTold isProper => ?_⟩
      · rw [stillOpen] at closed
        cases closed
      · rw [Diary.told_after] at isTold
        obtain ⟨earlier, isEarlier, rfl⟩ := Option.map_eq_some_iff.mp isTold
        rw [Diary.fresh_after] at isProper
        exact (proceeds.update (awaits.begun earlier isEarlier isProper)
          moved).2 rfl
    · have ends : endedKind result changed = closedKind changed := if_neg goesOn
      rw [ends]
      exact ⟨lawful, fun runs => absurd (of_decide_eq_true runs) goesOn,
        fun _ => closedKind_closedKind changed, fun _ _ => proceeds.anew fits,
        fun runs => absurd (of_decide_eq_true runs) goesOn⟩
  close awaits fits :=
    ⟨awaits.lawful, nofun, fun _ => closedKind_closedKind _,
      fun _ _ => proceeds.anew fits, nofun⟩

theorem refreshes_awaits
    (anew : ∀ {kind : KindState}, kind.fits composite.kind = true →
      waits [] (begunKind home composite false kind)) :
    Refreshes home composite (Awaits home composite law waits proper) where
  fresh := .start fun _ _ => anew (Blackboard.fits_forNode home composite)
  stop awaits fits :=
    ⟨awaits.lawful, nofun, awaits.cleared, fun _ _ => anew fits, nofun⟩
  sync := by
    intro diary kind awaits fits
    have shape := NodeState.shape_syncKind kind composite.kind
    refine ⟨awaits.lawful, nofun, fun closed => ?_,
      fun _ _ => anew (KindState.fits_of_shape shape fits), nofun⟩
    rw [closedKind_syncKind, awaits.cleared closed]

end BehaviorTree
