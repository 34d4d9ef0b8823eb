import BehaviorTree.Edit

/-!
# Outcomes of edits

An edit ends in one of three ways: it goes through, it is refused, or it runs out
of hashes or indices.  `Edit.Completes` says that the second way is excluded,
`Edit.Delivers` that the third one is too if there are enough of both, and
`Edit.Upholds` that the second leaves the state as it was.  They speak of the
result of a run and are followed through the run step by step.  `Edit.Keeps` is
about what survives an edit in whichever way it ends.
-/

namespace BehaviorTree

namespace Edit

variable {σ τ β γ : Type}

/-- The edit is not refused, and what it leads to satisfies `post` unless it ran out
of something. -/
def Completes (post : β → σ → Prop) : EStateM.Result EditError σ β → Prop
  | .ok value after => post value after
  | .error (.refused _) _ => False
  | .error (.exhausted _) _ => True

/-- What the edit leads to satisfies `post`; if it is refused, the state is the
one from `before`. -/
def Upholds (before : σ) (post : β → σ → Prop) :
    EStateM.Result EditError σ β → Prop
  | .ok value after => post value after
  | .error (.refused _) after => after = before
  | .error (.exhausted _) _ => True

/-- The edit is not refused and leads to `post`; it does not run out of hashes
if they are `enough`, nor of indices if there is `room`. -/
def Delivers (enough room : Prop) (post : β → σ → Prop) :
    EStateM.Result EditError σ β → Prop
  | .ok value after => post value after
  | .error (.refused _) _ => False
  | .error (.exhausted (.hashes _)) _ => ¬ enough
  | .error (.exhausted .indices) _ => ¬ room

/-- The edit without its value. -/
def discard (edit : Edit σ β) : Edit σ Unit := edit >>= fun _ => pure ()

/-- The state that an edit leaves behind, whether it went through or was
refused; none if it ran out of something. -/
def settle (edit : Edit σ β) (state : σ) : Option σ :=
  match edit state with
  | .ok _ after => some after
  | .error (.refused _) after => some after
  | .error (.exhausted _) _ => none

theorem bind_apply (edit : Edit σ β) (next : β → Edit σ γ) (state : σ) :
    (edit >>= next) state =
      match edit state with
      | .ok value after => next value after
      | .error failure after => .error failure after := by
  change EStateM.bind edit next state = _
  unfold EStateM.bind
  cases edit state <;> rfl

theorem get_bind (next : σ → Edit σ γ) (state : σ) :
    ((get : Edit σ σ) >>= next) state = next state state :=
  rfl

namespace Completes

variable {post : β → σ → Prop} {final : γ → σ → Prop} {state : σ}

theorem mono {weaker : β → σ → Prop} {result : EStateM.Result EditError σ β}
    (completes : Completes post result)
    (weaken : ∀ value after, post value after → weaker value after) :
    Completes weaker result := by
  cases result with
  | ok value after => exact weaken value after completes
  | error failure after => cases failure <;> exact completes

theorem bind {edit : Edit σ β} {next : β → Edit σ γ}
    (first : Completes post (edit state))
    (rest : ∀ value after, post value after →
      Completes final (next value after)) :
    Completes final ((edit >>= next) state) := by
  rw [bind_apply]
  cases ended : edit state with
  | ok value after => exact rest value after (by rwa [ended] at first)
  | error failure after =>
      rw [ended] at first
      cases failure <;> exact first

theorem after_ok {edit : Edit σ β} {next : β → Edit σ γ} {value : β}
    {after : σ} (ended : edit state = .ok value after)
    (rest : Completes final (next value after)) :
    Completes final ((edit >>= next) state) := by
  rw [bind_apply, ended]
  exact rest

theorem after_get {next : σ → Edit σ γ}
    (rest : Completes final (next state state)) :
    Completes final ((get >>= next) state) :=
  rest

theorem after_modify {change : σ → σ} {next : PUnit → Edit σ γ}
    (rest : Completes final (next ⟨⟩ (change state))) :
    Completes final ((modify change >>= next) state) :=
  rest

theorem after_require {check : Except TopologyError β} {value : β}
    {next : β → Edit σ γ} (passed : check = .ok value)
    (rest : Completes final (next value state)) :
    Completes final ((require check >>= next) state) := by
  rw [passed]
  exact rest

theorem zoom {view : σ → τ} {update : τ → σ → σ} {edit : Edit τ β}
    (inner : Completes (fun value part => post value (update part state))
      (edit (view state))) :
    Completes post (zoom view update edit state) := by
  rw [Edit.zoom]
  cases ended : edit (view state) with
  | ok value part => rwa [ended] at inner
  | error failure part =>
      rw [ended] at inner
      cases failure <;> exact inner

end Completes

namespace Delivers

variable {enough room : Prop} {post : β → σ → Prop} {state : σ}

theorem mono {fewer less : Prop} {weaker : β → σ → Prop}
    {result : EStateM.Result EditError σ β}
    (delivers : Delivers enough room post result) (sufficient : fewer → enough)
    (roomy : less → room)
    (weaken : ∀ value after, post value after → weaker value after) :
    Delivers fewer less weaker result := by
  cases result with
  | ok value after => exact weaken value after delivers
  | error failure after =>
      rcases failure with cause | failure | _
      · exact delivers
      · exact fun few => delivers (sufficient few)
      · exact fun little => delivers (roomy little)

theorem weaken {weaker : β → σ → Prop} {result : EStateM.Result EditError σ β}
    (delivers : Delivers enough room post result)
    (implies : ∀ value after, post value after → weaker value after) :
    Delivers enough room weaker result :=
  delivers.mono id id implies

theorem and_completes {other : β → σ → Prop}
    {result : EStateM.Result EditError σ β}
    (delivers : Delivers enough room post result)
    (completes : Completes other result) :
    Delivers enough room (fun value after => post value after ∧ other value after)
      result := by
  cases result with
  | ok value after => exact ⟨delivers, completes⟩
  | error failure after => rcases failure with cause | failure | _ <;> exact delivers

theorem of_completes {result : EStateM.Result EditError σ β}
    (completes : Completes post result) : Delivers False False post result := by
  cases result with
  | ok value after => exact completes
  | error failure after =>
      rcases failure with cause | failure | _
      · exact completes
      · exact not_false
      · exact not_false

theorem completes {result : EStateM.Result EditError σ β}
    (delivers : Delivers enough room post result) : Completes post result := by
  cases result with
  | ok value after => exact delivers
  | error failure after =>
      cases failure with
      | refused cause => exact delivers
      | exhausted cause => trivial

theorem exists_ok {result : EStateM.Result EditError σ β}
    (delivers : Delivers enough room post result) (holds : enough) (fits : room) :
    ∃ value after, result = .ok value after ∧ post value after := by
  cases result with
  | ok value after => exact ⟨value, after, rfl, delivers⟩
  | error failure after =>
      rcases failure with cause | failure | _
      · exact delivers.elim
      · exact (delivers holds).elim
      · exact (delivers fits).elim

theorem bind {first before : Prop} {edit : Edit σ β} {next : β → Edit σ γ}
    {final : γ → σ → Prop} (begun : Delivers first before post (edit state))
    (enoughFirst : enough → first) (roomBefore : room → before)
    (rest : ∀ value after, post value after →
      Delivers enough room final (next value after)) :
    Delivers enough room final ((edit >>= next) state) := by
  rw [bind_apply]
  cases ended : edit state with
  | ok value after => exact rest value after (by rwa [ended] at begun)
  | error failure after =>
      rw [ended] at begun
      rcases failure with cause | failure | _
      · exact begun
      · exact fun holds => begun (enoughFirst holds)
      · exact fun fits => begun (roomBefore fits)

theorem after_modify {change : σ → σ} {next : PUnit → Edit σ γ}
    {final : γ → σ → Prop}
    (rest : Delivers enough room final (next ⟨⟩ (change state))) :
    Delivers enough room final ((modify change >>= next) state) :=
  rest

theorem after_get {next : σ → Edit σ γ} {final : γ → σ → Prop}
    (rest : Delivers enough room final (next state state)) :
    Delivers enough room final ((get >>= next) state) :=
  rest

theorem after_require {check : Except TopologyError β} {value : β}
    {next : β → Edit σ γ} {final : γ → σ → Prop} (passed : check = .ok value)
    (rest : Delivers enough room final (next value state)) :
    Delivers enough room final ((require check >>= next) state) := by
  rw [passed]
  exact rest

theorem after_ok {edit : Edit σ β} {next : β → Edit σ γ} {value : β}
    {after : σ} {final : γ → σ → Prop} (done : edit state = .ok value after)
    (rest : Delivers enough room final (next value after)) :
    Delivers enough room final ((edit >>= next) state) := by
  rwa [bind_apply, done]

theorem zoom {view : σ → τ} {update : τ → σ → σ} {edit : Edit τ β}
    (inner : Delivers enough room (fun value part => post value (update part state))
      (edit (view state))) :
    Delivers enough room post (zoom view update edit state) := by
  rw [Edit.zoom]
  cases ended : edit (view state) with
  | ok value part => rwa [ended] at inner
  | error failure part =>
      rw [ended] at inner
      rcases failure with cause | failure | _ <;> exact inner

end Delivers

namespace Upholds

variable {post : β → σ → Prop} {final : γ → σ → Prop} {before state : σ}

theorem of_completes {result : EStateM.Result EditError σ β}
    (completes : Completes post result) : Upholds before post result := by
  cases result with
  | ok value after => exact completes
  | error failure after => cases failure <;> trivial

theorem mono {weaker : β → σ → Prop} {result : EStateM.Result EditError σ β}
    (upholds : Upholds before post result)
    (weaken : ∀ value after, post value after → weaker value after) :
    Upholds before weaker result := by
  cases result with
  | ok value after => exact weaken value after upholds
  | error failure after => cases failure <;> exact upholds

theorem bind {edit : Edit σ β} {next : β → Edit σ γ}
    (first : Upholds before post (edit state))
    (rest : ∀ value after, post value after →
      Completes final (next value after)) :
    Upholds before final ((edit >>= next) state) := by
  rw [bind_apply]
  cases ended : edit state with
  | ok value after =>
      exact of_completes (rest value after (by rwa [ended] at first))
  | error failure after =>
      rw [ended] at first
      cases failure <;> exact first

theorem discard {holds : σ → Prop} {edit : Edit σ β}
    (upholds : Upholds before (fun _ after => holds after) (edit state)) :
    Upholds before (fun _ after => holds after) (discard edit state) :=
  upholds.bind fun _ _ held => held

theorem of_settle {holds : σ → Prop} {edit : Edit σ β} {after : σ}
    (upholds : Upholds state (fun _ after => holds after) (edit state))
    (initially : holds state) (settled : settle edit state = some after) :
    holds after := by
  rw [settle] at settled
  split at settled
  · next value final ended =>
      rw [ended] at upholds
      exact Option.some.inj settled ▸ upholds
  · next cause final ended =>
      rw [ended] at upholds
      have unchanged : final = state := upholds
      rw [← Option.some.inj settled, unchanged]
      exact initially
  · cases settled

theorem after_get {next : σ → Edit σ γ}
    (rest : Upholds before final (next state state)) :
    Upholds before final ((get >>= next) state) :=
  rest

theorem after_require {check : Except TopologyError β} {next : β → Edit σ γ}
    (rest : ∀ value, check = .ok value →
      Upholds state final (next value state)) :
    Upholds state final ((require check >>= next) state) := by
  cases checked : check with
  | ok value => exact rest value checked
  | error cause => exact rfl

theorem after_guard {condition : Prop} [Decidable condition]
    {cause : TopologyError} {next : β → Edit σ γ} {rest : Edit σ γ}
    (passed : ¬ condition → Upholds state final (rest state)) :
    Upholds state final
      ((if condition then refuse cause >>= next else rest) state) := by
  by_cases holds : condition
  · rw [if_pos holds]
    exact rfl
  · rw [if_neg holds]
    exact passed holds

/-- An edit of a part that puts the part back unchanged when it is refused. -/
theorem zoom {view : σ → τ} {update : τ → σ → σ} {edit : Edit τ β}
    (inner : Upholds (view state)
      (fun value part => post value (update part state)) (edit (view state)))
    (restored : update (view state) state = state) :
    Upholds state post (zoom view update edit state) := by
  rw [Edit.zoom]
  cases ended : edit (view state) with
  | ok value part => rwa [ended] at inner
  | error failure part =>
      rw [ended] at inner
      cases failure with
      | exhausted cause => exact inner
      | refused cause =>
          have unchanged : part = view state := inner
          change update part state = state
          rw [unchanged, restored]

theorem unchanged {result : EStateM.Result EditError σ β} {after : σ}
    {cause : TopologyError} (upholds : Upholds before post result)
    (refused : result = .error (.refused cause) after) : after = before := by
  rw [refused] at upholds
  exact upholds

end Upholds

/-- Whichever way the edit ends, what `holds` before it does so afterwards; a
value that it returns satisfies `post`. -/
def Keeps (holds : σ → Prop) (post : β → Prop) (edit : Edit σ β) : Prop :=
  ∀ state, holds state →
    match edit state with
    | .ok value after => post value ∧ holds after
    | .error _ after => holds after

namespace Keeps

variable {holds : σ → Prop} {post : β → Prop} {final : γ → Prop}

theorem pure {value : β} (satisfies : post value) :
    Keeps holds post (pure value : Edit σ β) :=
  fun _ held => ⟨satisfies, held⟩

theorem get : Keeps holds holds (get : Edit σ σ) :=
  fun _ held => ⟨held, held⟩

theorem set {state : σ} (held : holds state) :
    Keeps holds (fun _ => True) (set state : Edit σ PUnit) :=
  fun _ _ => ⟨trivial, held⟩

theorem modify {change : σ → σ}
    (changed : ∀ state, holds state → holds (change state)) :
    Keeps holds (fun _ => True) (modify change : Edit σ PUnit) :=
  fun state held => ⟨trivial, changed state held⟩

theorem throw (failure : EditError) :
    Keeps holds post (throw failure : Edit σ β) :=
  fun _ held => held

theorem refuse (cause : TopologyError) :
    Keeps holds post (refuse cause : Edit σ β) :=
  throw _

theorem require (check : Except TopologyError β) :
    Keeps holds (fun value => check = .ok value) (require check) := by
  cases check with
  | ok value => exact pure rfl
  | error cause => exact refuse cause

theorem bind {edit : Edit σ β} {next : β → Edit σ γ}
    (first : Keeps holds post edit)
    (rest : ∀ value, post value → Keeps holds final (next value)) :
    Keeps holds final (edit >>= next) := by
  intro state held
  rw [bind_apply]
  have kept := first state held
  cases ended : edit state with
  | ok value after =>
      rw [ended] at kept
      exact rest value kept.1 after kept.2
  | error failure after => rwa [ended] at kept

theorem andThen {edit : Edit σ β} {next : β → Edit σ γ}
    (first : Keeps holds post edit)
    (rest : ∀ value, Keeps holds final (next value)) :
    Keeps holds final (edit >>= next) :=
  first.bind fun value _ => rest value

theorem ite {condition : Prop} [Decidable condition] {yes no : Edit σ β}
    (keepsYes : Keeps holds post yes) (keepsNo : Keeps holds post no) :
    Keeps holds post (if condition then yes else no) := by
  split
  · exact keepsYes
  · exact keepsNo

theorem guard {condition : Prop} [Decidable condition]
    {cause : TopologyError} {next : β → Edit σ γ} {rest : Edit σ γ}
    (passed : Keeps holds final rest) :
    Keeps holds final
      (if condition then Edit.refuse cause >>= next else rest) := by
  have refused : Keeps holds (fun _ => False) (Edit.refuse cause : Edit σ β) :=
    refuse cause
  exact ite (refused.bind fun _ impossible => impossible.elim) passed

theorem discard {edit : Edit σ β} (keeps : Keeps holds (fun _ => True) edit) :
    Keeps holds (fun _ => True) (discard edit) :=
  keeps.andThen fun _ => pure trivial

theorem zoom {part : τ → Prop} {view : σ → τ} {update : τ → σ → σ}
    {edit : Edit τ β} (keeps : Keeps part post edit)
    (viewed : ∀ state, holds state → part (view state))
    (updated : ∀ state inner, holds state → part inner →
      holds (update inner state)) :
    Keeps holds post (zoom view update edit) := by
  intro state held
  rw [Edit.zoom]
  have kept := keeps (view state) (viewed state held)
  cases ended : edit (view state) with
  | ok value inner =>
      rw [ended] at kept
      exact ⟨kept.1, updated state inner held kept.2⟩
  | error failure inner =>
      rw [ended] at kept
      exact updated state inner held kept

theorem of_settle {edit : Edit σ β} (keeps : Keeps holds post edit)
    {state after : σ} (held : holds state)
    (settled : settle edit state = some after) : holds after := by
  have kept := keeps state held
  rw [settle] at settled
  split at settled
  · next value final ended =>
      rw [ended] at kept
      exact Option.some.inj settled ▸ kept.2
  · next cause final ended =>
      rw [ended] at kept
      exact Option.some.inj settled ▸ kept
  · cases settled

end Keeps

end Edit

end BehaviorTree
