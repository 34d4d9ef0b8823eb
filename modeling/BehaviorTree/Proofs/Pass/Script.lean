import Mathlib.Tactic.Choose
import Mathlib.Tactic.SplitIfs
import BehaviorTree.Proofs.Pass.Acting

/-!
# Scripts of updates

The update of a node is a script: it acts, ticks a node, goes on from the result
and so on, up to its value.  The script does not depend on how nodes are ticked,
so what two ways of ticking have in common is proved for scripts once.

The scripts of updates fail fast: whatever the kind of the node, a tick that
comes to an error is the last one, and the update comes to an error itself.
-/

namespace BehaviorTree

open BehaviorTree.Pass

variable {α β γ : Type}

/-- A computation on a pass with the outcomes of ticks left open. -/
inductive Script (α β : Type) where
  | done (value : β) (pass : Pass α)
  | outOfFuel
  | tick (tree : Tree) (node : Node) (pass : Pass α)
      (next : Status → Pass α → Script α β)

namespace Script

/-- The outcome of a script if nodes are ticked by `visit`. -/
def run (visit : PassM.Visit α) : Script α β → Option (β × Pass α)
  | done value pass => some (value, pass)
  | outOfFuel => none
  | tick tree node pass next =>
    (visit tree node pass).bind fun result =>
      (next result.1 result.2).run visit

/-- Goes on with `rest` where a script is done. -/
def bind (rest : β → Pass α → Script α γ) : Script α β → Script α γ
  | done value pass => rest value pass
  | outOfFuel => outOfFuel
  | tick tree node pass next =>
    tick tree node pass fun status after => (next status after).bind rest

theorem run_bind (visit : PassM.Visit α) (rest : β → Pass α → Script α γ)
    (script : Script α β) :
    (script.bind rest).run visit =
      (script.run visit).bind fun result => (rest result.1 result.2).run visit := by
  induction script with
  | done value pass => rfl
  | outOfFuel => rfl
  | tick tree node pass next induction =>
      rw [bind, run, run]
      cases visit tree node pass with
      | none => rfl
      | some result => exact induction result.1 result.2

end Script

/-- Where an update ticks: a child of the node, or for a Transition the root of
its target, one level deeper.  The pass is led back by the last argument. -/
inductive Way (setting : Setting α) (tree : Tree) (node : Node) :
    Pass α → Tree → Node → Pass α → (Pass α → Pass α) → Prop where
  | child {pass : Pass α} {child : Node} {index : Nat} :
      node.kind.transitionTarget = none →
      tree.childAt node index = some child →
      Way setting tree node pass tree child pass fun after => after
  | jump {pass : Pass α} {selector : TreeSelector} {target : Tree} :
      node.kind.transitionTarget = some selector →
      setting.forest.select selector = some target →
      pass.depth < setting.config.maxTransitionDepth.toNat →
      Way setting tree node pass target target.rootNode
        { pass with depth := pass.depth + 1 }
        fun after => { after with depth := after.depth - 1 }

namespace Script

/-- A script of the update of a node, begun in the given pass, for which `bad`
stands for an error: it comes to `bad` with a complaint of its own, or when a
tick has come to an error, and then without ticking again. -/
inductive FailFast (setting : Setting α) (tree : Tree) (node : Node) (bad : β) :
    Pass α → Script α β → Prop where
  | outOfFuel {pass : Pass α} :
      FailFast setting tree node bad pass outOfFuel
  | done {pass after : Pass α} {value : β} :
      Acts setting tree node pass after →
      value ≠ bad →
      FailFast setting tree node bad pass (done value after)
  | fail {pass chosen failing : Pass α} {message : String} :
      Acts setting tree node pass chosen →
      Acts setting tree node pass failing →
      Complaint setting tree node chosen failing message →
      FailFast setting tree node bad pass (done bad (failing.addError message))
  | tick {pass middle start : Pass α} {next : Tree} {child : Node}
      {back : Pass α → Pass α} {rest : Status → Pass α → Script α β} :
      Acts setting tree node pass middle →
      Way setting tree node middle next child start back →
      (∀ status after, status ≠ .error →
        FailFast setting tree node bad (back after) (rest status after)) →
      (∀ after, ∃ moved, Moves tree node (back after) moved ∧
        rest .error after = done bad moved) →
      FailFast setting tree node bad pass (tick next child start rest)

namespace FailFast

variable {setting : Setting α} {tree : Tree} {node : Node} {bad : β}
  {pass middle : Pass α} {script : Script α β}

theorem prepend (acts : Acts setting tree node pass middle)
    (failFast : script.FailFast setting tree node bad middle) :
    script.FailFast setting tree node bad pass := by
  cases failFast with
  | outOfFuel => exact .outOfFuel
  | done later good => exact .done (acts.trans later) good
  | fail chosen failing complaint =>
      exact .fail (acts.trans chosen) (acts.trans failing) complaint
  | tick later way goesOn stops => exact .tick (acts.trans later) way goesOn stops

theorem bind {worse : γ} {rest : β → Pass α → Script α γ}
    (failFast : script.FailFast setting tree node bad pass)
    (goesOn : ∀ value after, value ≠ bad →
      (rest value after).FailFast setting tree node worse after)
    (stops : ∀ after, rest bad after = .done worse after) :
    (script.bind rest).FailFast setting tree node worse pass := by
  induction failFast with
  | outOfFuel => exact .outOfFuel
  | done acts good => exact (goesOn _ _ good).prepend acts
  | fail chosen failing complaint =>
      rw [Script.bind, stops]
      exact .fail chosen failing complaint
  | tick acts way _ ends induction =>
      refine .tick acts way induction fun after => ?_
      obtain ⟨moved, moves, isDone⟩ := ends after
      exact ⟨moved, moves, by rw [isDone, Script.bind, stops]⟩

end FailFast

end Script

/-- The computation is a script that fails fast, however nodes are ticked. -/
def Planned (setting : Setting α) (tree : Tree) (node : Node) (bad : β)
    (computation : PassM.Visit α → PassM α β) (pass : Pass α) : Prop :=
  ∃ script : Script α β,
    (∀ visit, computation visit pass = script.run visit) ∧
      script.FailFast setting tree node bad pass

theorem ParallelSpec.verdict_eq_error_iff (spec : ParallelSpec) (index : Nat)
    (status : Status) (results : List (Option Status)) :
    spec.verdict index status results = some .error ↔ status = .error := by
  unfold verdict
  dsimp only
  constructor
  · intro decided
    by_contra good
    rw [if_neg good] at decided
    split_ifs at decided
    · exact good (Option.some.inj decided)
    all_goals cases decided
  · exact fun error => if_pos error

theorem ParallelSpec.conclusion_ne_error (spec : ParallelSpec)
    (results : List (Option Status)) : spec.conclusion results ≠ .error := by
  unfold conclusion
  split
  · nofun
  · cases spec.defaultSuccess
    · nofun
    · nofun

namespace Planned

variable {setting : Setting α} {tree : Tree} {node : Node} {bad : β}
  {pass middle : Pass α} {computation : PassM.Visit α → PassM α β}

theorem of_result {value : β} {after : Pass α}
    (known : ∀ visit, computation visit pass = some (value, after))
    (acts : Acts setting tree node pass after) (good : value ≠ bad) :
    Planned setting tree node bad computation pass :=
  ⟨.done value after, known, .done acts good⟩

theorem of_failure {chosen failing : Pass α} {message : String}
    (known : ∀ visit,
      computation visit pass = some (bad, failing.addError message))
    (acts : Acts setting tree node pass chosen)
    (reaches : Acts setting tree node pass failing)
    (complaint : Complaint setting tree node chosen failing message) :
    Planned setting tree node bad computation pass :=
  ⟨.done bad (failing.addError message), known, .fail acts reaches complaint⟩

theorem of_mistake {message : String}
    (known : ∀ visit, computation visit pass = some (bad, pass.addError message))
    (mistake : Mistake setting tree node message) :
    Planned setting tree node bad computation pass :=
  of_failure known .refl .refl (.mistake mistake)

theorem of_acts {later : PassM.Visit α → PassM α β}
    (acts : Acts setting tree node pass middle)
    (starts : ∀ visit, computation visit pass = later visit middle)
    (rest : Planned setting tree node bad later middle) :
    Planned setting tree node bad computation pass := by
  obtain ⟨script, same, failFast⟩ := rest
  exact ⟨script, fun visit => (starts visit).trans (same visit),
    failFast.prepend acts⟩

theorem of_modify {change : Pass α → Pass α}
    {rest : PassM.Visit α → PUnit → PassM α β}
    (move : Move tree node pass (change pass))
    (planned : Planned setting tree node bad (fun visit => rest visit ⟨⟩)
      (change pass)) :
    Planned setting tree node bad
      (fun visit => (modify change : PassM α PUnit) >>= rest visit) pass :=
  of_acts (.single (.move move)) (fun _ => PassM.modify_bind _ _ _) planned

theorem of_modifyGet {change : Pass α → γ × Pass α}
    {rest : PassM.Visit α → γ → PassM α β}
    (move : Move tree node pass (change pass).2)
    (planned : Planned setting tree node bad
      (fun visit => rest visit (change pass).1) (change pass).2) :
    Planned setting tree node bad
      (fun visit => (modifyGet change : PassM α γ) >>= rest visit) pass :=
  of_acts (.single (.move move)) (fun _ => PassM.modifyGet_bind _ _ _) planned

/-- A computation that begins with a tick. -/
theorem of_tick {start : Pass α} {next : Tree} {child : Node}
    {back : Pass α → Pass α} (rest : PassM.Visit α → Status → PassM α β)
    (acts : Acts setting tree node pass middle)
    (way : Way setting tree node middle next child start back)
    (ticks : ∀ visit, computation visit pass =
      (visit next child start).bind fun result =>
        rest visit result.1 (back result.2))
    (goesOn : ∀ status after, status ≠ .error →
      Planned setting tree node bad (fun visit => rest visit status) (back after))
    (stops : ∀ after, ∃ moved, Moves tree node (back after) moved ∧
      ∀ visit, rest visit .error (back after) = some (bad, moved)) :
    Planned setting tree node bad computation pass := by
  choose moved moves isMoved using stops
  choose scripts same failFast using goesOn
  let continues (status : Status) (after : Pass α) : Script α β :=
    if good : status ≠ .error then scripts status after good
    else .done bad (moved after)
  refine ⟨.tick next child start continues, ?_, .tick acts way ?_ ?_⟩
  · intro visit
    rw [ticks, Script.run]
    congr 1
    funext result
    by_cases good : result.1 ≠ .error
    · simp only [continues, dif_pos good]
      exact same result.1 result.2 good visit
    · simp only [continues, dif_neg good]
      rw [not_not.mp good]
      exact isMoved result.2 visit
  · intro status after good
    simp only [continues, dif_pos good]
    exact failFast status after good
  · exact fun after => ⟨moved after, moves after, dif_neg (not_not.mpr rfl)⟩

theorem bind {worse : γ} {rest : PassM.Visit α → β → PassM α γ}
    (planned : Planned setting tree node bad computation pass)
    (goesOn : ∀ value after, value ≠ bad →
      Planned setting tree node worse (fun visit => rest visit value) after)
    (stops : ∀ visit after, rest visit bad after = some (worse, after)) :
    Planned setting tree node worse
      (fun visit => computation visit >>= rest visit) pass := by
  obtain ⟨script, same, failFast⟩ := planned
  choose scripts sameRest failFastRest using goesOn
  classical
  let continues (value : β) (after : Pass α) : Script α γ :=
    if good : value ≠ bad then scripts value after good else .done worse after
  refine ⟨script.bind continues, ?_, failFast.bind ?_ ?_⟩
  · intro visit
    change (computation visit >>= rest visit) pass = _
    rw [PassM.bind_apply, same, Script.run_bind]
    congr 1
    funext result
    by_cases good : result.1 ≠ bad
    · simp only [continues, dif_pos good]
      exact sameRest result.1 result.2 good visit
    · simp only [continues, dif_neg good]
      rw [not_not.mp good]
      exact stops visit result.2
  · intro value after good
    simp only [continues, dif_pos good]
    exact failFastRest value after good
  · exact fun after => dif_neg (not_not.mpr rfl)

theorem tickChild_of_missing (visit : PassM.Visit α) {index : Nat}
    (missing : tree.childAt node index = none) :
    PassM.tickChild visit tree node index pass =
      some (.error, pass.addError (missingMessage node index)) := by
  rw [PassM.tickChild, missing]
  rfl

theorem tickFound {child : Node} {index : Nat}
    (plain : node.kind.transitionTarget = none)
    (isChild : tree.childAt node index = some child) :
    Planned setting tree node .error
      (fun visit => PassM.tickChild visit tree node index) pass := by
  refine of_tick (fun _ status => pure status) .refl
    (.child plain isChild) (fun visit => ?_) ?_ ?_
  · rw [PassM.tickChild, isChild]
    exact (Option.bind_fun_some (visit tree child pass)).symm
  · exact fun status after good => of_result (fun _ => rfl) .refl good
  · exact fun after => ⟨after, .refl, fun _ => rfl⟩

theorem tickChild {index : Nat} (plain : node.kind.transitionTarget = none)
    (complains : tree.childAt node index = none →
      Fault tree node pass pass (missingMessage node index)) :
    Planned setting tree node .error
      (fun visit => PassM.tickChild visit tree node index) pass := by
  cases isChild : tree.childAt node index with
  | none =>
      exact of_failure (fun visit => tickChild_of_missing visit isChild) .refl
        .refl (.fault (complains isChild))
  | some child => exact tickFound plain isChild

section Composites

variable (plain : node.kind.transitionTarget = none)

include plain in
theorem scan {goOn : Status} (noError : goOn ≠ .error) {indices : List Nat}
    (listed : ∀ index ∈ indices, index < node.children.length) :
    Planned setting tree node .error
      (fun visit => PassM.scan (PassM.tickChild visit tree node) goOn indices)
      pass := by
  induction indices generalizing pass with
  | nil => exact of_result (fun _ => rfl) .refl noError
  | cons index rest induction =>
      refine (tickChild plain (.listed (listed index List.mem_cons_self))).bind
        (fun status middle good => ?_) fun visit after => ?_
      · by_cases same : status = goOn
        · simp only [if_pos same]
          exact induction fun other member =>
            listed other (List.mem_cons_of_mem _ member)
        · simp only [if_neg same]
          exact of_result (fun _ => rfl) .refl good
      · rw [if_neg (Ne.symm noError)]
        rfl

/-- One round of a composite that records the child that is running. -/
theorem round {goOn : Status} (noError : goOn ≠ .error)
    {record : PassM α Unit} {tickAt rest : PassM.Visit α → PassM α Status}
    (records : ∀ middle, ∃ after, record middle = some ((), after) ∧
      Acts setting tree node middle after)
    (ticks : Planned setting tree node .error tickAt pass)
    (goesOn : ∀ after, Planned setting tree node .error rest after) :
    Planned setting tree node .error
      (fun visit => tickAt visit >>= fun status =>
        if status = .running then do
          record
          return status
        else if status = goOn then rest visit
        else return status)
      pass := by
  refine ticks.bind (fun status middle good => ?_) fun visit after => ?_
  · by_cases running : status = .running
    · simp only [if_pos running]
      obtain ⟨after, recorded, acts⟩ := records middle
      refine of_result (fun visit => ?_) acts good
      rw [PassM.bind_apply, recorded]
      rfl
    · simp only [if_neg running]
      by_cases same : status = goOn
      · simp only [if_pos same]
        exact goesOn middle
      · simp only [if_neg same]
        exact of_result (fun _ => rfl) .refl good
  · rw [if_neg nofun, if_neg (Ne.symm noError)]
    rfl

include plain

theorem scanMem {goOn : Status} (noError : goOn ≠ .error) {indices : List Nat}
    (listed : ∀ index ∈ indices, index < node.children.length) :
    Planned setting tree node .error
      (fun visit => PassM.scanMem (PassM.tickChild visit tree node)
        (PassM.recordMem tree node) goOn indices) pass := by
  induction indices generalizing pass with
  | nil => exact of_result (fun _ => rfl) .refl noError
  | cons index rest induction =>
      refine round noError (fun middle => ?_)
        (tickChild plain (.listed (listed index List.mem_cons_self))) fun after => ?_
      · exact ⟨_, rfl, .single (.move (.recordMem index rfl))⟩
      · exact induction fun other member =>
          listed other (List.mem_cons_of_mem _ member)

theorem resumeMem {goOn : Status} (noError : goOn ≠ .error) :
    Planned setting tree node .error
      (fun visit => PassM.resumeMem visit tree node goOn) pass := by
  have scans : ∀ (start : Nat) (pass : Pass α),
      Planned setting tree node .error
        (fun visit => PassM.scanMem (PassM.tickChild visit tree node)
          (PassM.recordMem tree node) goOn
          (List.range' start (node.children.length - start))) pass := by
    intro start pass
    refine scanMem plain noError fun index member => ?_
    have := List.mem_range'_1.mp member
    omega
  refine of_modifyGet (.ensure pass) ?_
  cases kind : (pass.ensureState tree node).1.kind with
  | mem start => exact scans start _
  | _ =>
      refine of_modify (.misfit _) ?_
      exact scans 0 _

section Drawing

variable (prob : node.kind = .probSequence ∨ node.kind = .probSelector)
include prob

theorem drawLoop {goOn : Status} (noError : goOn ≠ .error) (count : Nat) :
    Planned setting tree node .error
      (fun visit => PassM.drawLoop (PassM.tickChild visit tree node) tree node
        goOn count) pass := by
  induction count generalizing pass with
  | zero => exact ⟨.outOfFuel, fun _ => rfl, .outOfFuel⟩
  | succ count induction =>
      cases isDrawn : (pass.nextProbChild tree node).1 with
      | none =>
          refine of_result (fun visit => ?_) (.single (.move (.draw pass prob)))
            noError
          rw [PassM.drawLoop, PassM.modifyGet_bind, isDrawn]
          rfl
      | some index =>
          let drawn := (pass.nextProbChild tree node).2
          have acts : Acts setting tree node pass drawn :=
            .single (.move (.draw pass prob))
          have starts : ∀ visit,
              PassM.drawLoop (PassM.tickChild visit tree node) tree node goOn
                (count + 1) pass =
              (PassM.tickChild visit tree node index >>= fun status =>
                  if status = .running then do
                    PassM.recordProb tree node index
                    return status
                  else if status = goOn then
                    PassM.drawLoop (PassM.tickChild visit tree node) tree node
                      goOn count
                  else return status) drawn := by
            intro visit
            rw [PassM.drawLoop.eq_def]
            dsimp only
            rw [PassM.modifyGet_bind, isDrawn]
          cases isChild : tree.childAt node index with
          | none =>
              refine of_failure (fun visit => ?_) .refl acts
                (.fault (.drawn isDrawn isChild))
              rw [starts, PassM.bind_apply, tickChild_of_missing visit isChild,
                Option.bind_some]
              dsimp only
              rw [if_neg nofun, if_neg (Ne.symm noError)]
              rfl
          | some child =>
              refine of_acts acts starts (round noError (fun middle => ?_)
                (tickFound plain isChild) fun _ => induction)
              exact ⟨_, rfl, .single (.move (.recordProb prob isChild rfl))⟩

theorem scanProb {goOn : Status} (noError : goOn ≠ .error) (fuel : Nat) :
    Planned setting tree node .error
      (fun visit => PassM.scanProb fuel visit tree node goOn) pass :=
  of_modifyGet (.ensure pass) (drawLoop plain prob noError fuel)

end Drawing

/-- What a Parallel does once a child was ticked. -/
def goOnParallel (visit : PassM.Visit α) (tree : Tree) (node : Node)
    (spec : ParallelSpec) (index : Nat) (rest : List Nat) (status : Status) :
    PassM α (Option Status) := do
  let results ← modifyGet (·.recordResult tree node index status)
  match spec.verdict index status results with
  | some verdict => return some verdict
  | none => PassM.visitParallel visit tree node spec rest

theorem visitParallel {configured : ParallelSpec}
    (isParallel : node.kind = .parallel configured) (spec : ParallelSpec)
    {indices : List Nat}
    (listed : ∀ index ∈ indices, index < node.children.length) :
    Planned setting tree node (some .error)
      (fun visit => PassM.visitParallel visit tree node spec indices) pass := by
  induction indices generalizing pass with
  | nil => exact of_result (fun _ => rfl) .refl nofun
  | cons index rest induction =>
      have later := fun {pass : Pass α} => @induction pass fun other member =>
        listed other (List.mem_cons_of_mem _ member)
      cases isSettled : PassM.isSettled (pass.parallelResults node) index with
      | true =>
          refine of_acts .refl (fun visit => ?_) later
          rw [PassM.visitParallel, PassM.get_bind, if_pos isSettled]
      | false =>
          have unsettled : ¬ PassM.isSettled (pass.parallelResults node) index =
              true := by
            rw [isSettled]
            exact Bool.false_ne_true
          cases isChild : tree.childAt node index with
          | none =>
              refine of_failure (fun visit => ?_) .refl .refl
                (.fault (.listed (listed index List.mem_cons_self) isChild))
              rw [PassM.visitParallel, PassM.get_bind, if_neg unsettled, isChild]
              rfl
          | some child =>
              refine of_tick (fun visit status =>
                  goOnParallel visit tree node spec index rest status)
                .refl (.child plain isChild) (fun visit => ?_) ?_ ?_
              · rw [PassM.visitParallel, PassM.get_bind, if_neg unsettled,
                  isChild]
                exact PassM.bind_apply _ _ _
              · intro status after good
                refine of_modifyGet (.record after index status isParallel) ?_
                cases isVerdict : spec.verdict index status
                    (after.recordResult tree node index status).1 with
                | some verdict =>
                    refine of_result (fun _ => rfl) .refl ?_
                    rintro ⟨⟩
                    exact good ((spec.verdict_eq_error_iff index status _).mp
                      isVerdict)
                | none => exact later
              · intro after
                refine ⟨_, .single (.record after index .error isParallel),
                  fun visit => ?_⟩
                have decided := (spec.verdict_eq_error_iff index .error
                  (after.recordResult tree node index .error).1).mpr rfl
                rw [goOnParallel, PassM.modifyGet_bind, decided]
                rfl

theorem parallel {configured : ParallelSpec}
    (isParallel : node.kind = .parallel configured) :
    Planned setting tree node .error
      (fun visit => PassM.parallel visit tree node) pass := by
  refine of_modifyGet (.prepare pass) ?_
  refine (visitParallel plain isParallel _ fun index member =>
    List.mem_range.mp member).bind (fun verdict after good => ?_)
    fun _ _ => rfl
  cases verdict with
  | some status => exact of_result (fun _ => rfl) .refl fun same => good (congrArg some same)
  | none =>
      refine of_result (fun _ => PassM.get_bind _ _) .refl ?_
      exact ParallelSpec.conclusion_ne_error _ _

end Composites

theorem plain_of_single (single : node.kind.arity = .single) :
    node.kind.transitionTarget = none := by
  cases kind : node.kind with
  | transition target =>
      rw [kind] at single
      cases single
  | _ => rfl

section Decorators

variable (single : node.kind.arity = .single)
include single

theorem delegate (change : Status → Status) (error : change .error = .error)
    (others : ∀ status, status ≠ .error → change status ≠ .error) :
    Planned setting tree node .error
      (fun visit => PassM.delegate visit tree node change) pass := by
  cases isChild : tree.childAt node 0 with
  | none =>
      refine of_failure (fun visit => ?_) .refl .refl
        (.fault (.single single isChild))
      rw [PassM.delegate, isChild]
      rfl
  | some child =>
      refine of_tick (fun _ status => pure (change status)) .refl
        (.child (plain_of_single single) isChild) (fun visit => ?_) ?_ ?_
      · rw [PassM.delegate, isChild]
        exact PassM.bind_apply _ _ _
      · exact fun status after good =>
          of_result (fun _ => rfl) .refl (others status good)
      · exact fun after => ⟨after, .refl, fun _ => by rw [error]; rfl⟩

theorem repeater :
    Planned setting tree node .error
      (fun visit => PassM.repeater visit tree node) pass := by
  have sets : ∀ (change : UInt32 → UInt32) (status : Status) (pass : Pass α),
      status ≠ .error →
      Planned setting tree node .error
        (fun _ => (do
          PassM.setRepeatCount tree node change
          return status : PassM α Status)) pass :=
    fun change status pass good =>
      of_result (fun _ => rfl) (.single (.move (.setRepeatCount change rfl))) good
  have counts : ∀ (repeats count : UInt32) (pass : Pass α),
      Planned setting tree node .error
        (fun visit => (if repeats ≤ count then do
            PassM.setRepeatCount tree node fun _ => 0
            return .success
          else do
            let status ← PassM.tickChild visit tree node 0
            if status = .success ∨ status = .failure then
              PassM.setRepeatCount tree node (· + 1)
              return .running
            else return status : PassM α Status)) pass := by
    intro repeats count pass
    by_cases reached : repeats ≤ count
    · simp only [if_pos reached]
      exact sets _ _ _ nofun
    simp only [if_neg reached]
    refine (tickChild (plain_of_single single) fun missing =>
      .single single missing).bind (fun status middle good => ?_) fun _ after => ?_
    · by_cases terminal : status = .success ∨ status = .failure
      · simp only [if_pos terminal]
        exact sets _ _ _ nofun
      · simp only [if_neg terminal]
        exact of_result (fun _ => rfl) .refl good
    · rw [if_neg (by simp)]
      rfl
  refine of_modifyGet (.ensure pass) ?_
  cases kind : (pass.ensureState tree node).1.kind with
  | repeater repeats count => exact counts repeats count _
  | _ => exact of_modify (.misfit _) (counts 0 0 _)

theorem limiter {configured : UInt32} (isLimiter : node.kind = .limiter configured) :
    Planned setting tree node .error
      (fun visit => PassM.limiter visit tree node) pass := by
  refine of_modifyGet (.ensure pass) ?_
  cases kind : (pass.ensureState tree node).1.kind with
  | limiter limit remaining =>
      dsimp only
      by_cases spent : remaining = 0
      · simp only [if_pos spent]
        exact of_result (fun _ => rfl) .refl nofun
      · simp only [if_neg spent]
        exact of_modify (.spend _ limit (remaining - 1) isLimiter)
          (delegate single id rfl fun _ good => good)
  | _ =>
      refine of_modify (.misfit _) ?_
      exact of_result (fun _ => rfl) .refl nofun

theorem allocator (resources : List String) :
    Planned setting tree node .error
      (fun visit => PassM.allocator visit tree node resources) pass := by
  cases taken : resources.any pass.board.globals.isTaken with
  | true =>
      refine of_result (fun visit => ?_) .refl (nofun : Status.running ≠ .error)
      rw [PassM.allocator, PassM.get_bind, if_pos taken]
      rfl
  | false =>
      refine of_acts .refl (fun visit => ?_)
        (delegate single id rfl fun _ good => good)
      rw [PassM.allocator, PassM.get_bind, taken, if_neg Bool.false_ne_true]

end Decorators

theorem ask {predicate : String}
    (asks : node.kind = .condition predicate ∨ node.kind = .verifier predicate) :
    Planned setting tree node none
      (fun _ => PassM.ask setting node predicate) pass := by
  cases checked : setting.behaviors.check predicate pass.agent
      pass.board.globals with
  | some answered =>
      have answers : PassM.ask setting node predicate pass =
          some (some answered.1, { pass with agent := answered.2 }) := by
        rw [PassM.ask, PassM.get_bind, checked]
        rfl
      exact of_result (fun _ => answers) (.single (.ask predicate checked)) nofun
  | none =>
      refine of_mistake (fun _ => ?_)
        (.unknownCondition asks (Option.map_eq_none_iff.mp checked))
      rw [PassM.ask, PassM.get_bind, checked]
      rfl

theorem verifier {predicate : String}
    (isVerifier : node.kind = .verifier predicate) :
    Planned setting tree node .error
      (fun visit => PassM.verifier setting visit tree node predicate) pass := by
  refine (ask (.inr isVerifier)).bind (fun answer after good => ?_) fun _ _ => rfl
  rcases answer with _ | _ | _
  · exact absurd rfl good
  · exact of_result (fun _ => rfl) .refl nofun
  · exact delegate (by rw [isVerifier]; rfl) id rfl fun _ good => good

theorem ofBool_ne_error (answer : Bool) : Status.ofBool answer ≠ .error := by
  cases answer
  · nofun
  · nofun

theorem condition {predicate : String}
    (isCondition : node.kind = .condition predicate) :
    Planned setting tree node .error
      (fun _ => PassM.condition setting node predicate) pass := by
  refine (ask (.inl isCondition)).bind (fun answer after good => ?_)
    fun _ _ => rfl
  cases answer with
  | none => exact absurd rfl good
  | some answer => exact of_result (fun _ => rfl) .refl (ofBool_ne_error answer)

theorem command {action : String} (isCommand : node.kind = .command action) :
    Planned setting tree node .error
      (fun _ => PassM.command setting node action) pass := by
  cases ran : setting.behaviors.run action pass.agent pass.board.globals with
  | some done =>
      refine of_result (fun _ => ?_) (.single (.run action ran))
        (nofun : Status.success ≠ .error)
      rw [PassM.command, PassM.get_bind, ran]
      rfl
  | none =>
      refine of_mistake (fun _ => ?_)
        (.unknownCommand isCommand (Option.map_eq_none_iff.mp ran))
      rw [PassM.command, PassM.get_bind, ran]
      rfl

theorem transition {target : Option TreeSelector}
    (isTransition : node.kind = .transition target) :
    Planned setting tree node .error
      (fun visit => PassM.transition setting visit node target) pass := by
  cases target with
  | none => exact of_mistake (fun _ => rfl) (.noTarget isTransition)
  | some selector =>
      cases isTarget : setting.forest.select selector with
      | none =>
          refine of_mistake (fun _ => ?_) (.missingTarget isTransition isTarget)
          rw [PassM.transition, isTarget]
          rfl
      | some target =>
          by_cases deep :
              setting.config.maxTransitionDepth.toNat ≤ pass.depth
          · refine of_mistake (fun _ => ?_) (.tooDeep isTransition)
            rw [PassM.transition, isTarget]
            dsimp only
            rw [PassM.get_bind, if_pos deep]
            rfl
          refine of_tick (fun _ status => pure status) .refl
            (.jump (by rw [isTransition]; rfl) isTarget (Nat.lt_of_not_le deep))
            (fun visit => ?_) ?_ ?_
          · rw [PassM.transition, isTarget]
            dsimp only
            rw [PassM.get_bind, if_neg deep, PassM.modify_bind]
            exact PassM.bind_apply _ _ _
          · exact fun status after good => of_result (fun _ => rfl) .refl good
          · exact fun after => ⟨_, .refl, fun _ => rfl⟩

theorem rootNode (isRoot : node.kind = .root) :
    Planned setting tree node .error
      (fun visit => PassM.rootNode visit tree node) pass := by
  cases isChild : tree.childAt node 0 with
  | none =>
      refine of_failure (fun visit => ?_) .refl .refl
        (.fault (.childless isRoot isChild))
      rw [PassM.rootNode, isChild]
      rfl
  | some child =>
      refine of_acts .refl (fun visit => ?_)
        (tickFound (by rw [isRoot]; rfl) isChild)
      rw [PassM.rootNode, PassM.tickChild, isChild]

end Planned

/-- Whatever the kind of the node, its update is a script that fails fast. -/
theorem planned_update (setting : Setting α) (fuel : Nat) (tree : Tree)
    (node : Node) (pass : Pass α) :
    Planned setting tree node .error
      (fun visit => PassM.update setting fuel visit tree node) pass := by
  have listed : ∀ index ∈ List.range node.children.length,
      index < node.children.length := fun _ => List.mem_range.mp
  have plain : ∀ {kind : NodeKind}, node.kind = kind →
      kind.transitionTarget = none → node.kind.transitionTarget = none :=
    fun same none => same ▸ none
  have single : ∀ {kind : NodeKind}, node.kind = kind →
      kind.arity = .single → node.kind.arity = .single :=
    fun same isSingle => same ▸ isSingle
  have others : ∀ (change : Status → Status),
      (∀ status, change status = .error → status = .error) →
      ∀ status, status ≠ .error → change status ≠ .error :=
    fun change only status good error => good (only status error)
  unfold PassM.update
  cases kind : node.kind with
  | root => exact Planned.rootNode kind
  | sequence => exact Planned.scan (plain kind rfl) (by decide) listed
  | selector => exact Planned.scan (plain kind rfl) (by decide) listed
  | memSequence => exact Planned.resumeMem (plain kind rfl) (by decide)
  | memSelector => exact Planned.resumeMem (plain kind rfl) (by decide)
  | probSequence => exact Planned.scanProb (plain kind rfl) (.inl kind) (by decide) fuel
  | probSelector => exact Planned.scanProb (plain kind rfl) (.inr kind) (by decide) fuel
  | parallel => exact Planned.parallel (plain kind rfl) kind
  | inverter =>
      exact Planned.delegate (single kind rfl) _ rfl
        (others _ fun status => by cases status <;> simp [Status.invert])
  | succeeder =>
      exact Planned.delegate (single kind rfl) _ rfl
        (others _ fun status => by cases status <;> simp [Status.succeed])
  | failer =>
      exact Planned.delegate (single kind rfl) _ rfl
        (others _ fun status => by cases status <;> simp [Status.fail])
  | repeater => exact Planned.repeater (single kind rfl)
  | limiter => exact Planned.limiter (single kind rfl) kind
  | allocator resources => exact Planned.allocator (single kind rfl) resources
  | verifier predicate => exact Planned.verifier kind
  | echoDecorator message =>
      exact .of_modify (.echo pass message)
        (.delegate (single kind rfl) id rfl fun _ good => good)
  | condition predicate => exact Planned.condition kind
  | command action => exact Planned.command kind
  | transition target => exact Planned.transition kind
  | echoLeaf message succeed =>
      exact .of_modify (.echo pass message)
        (.of_result (fun _ => rfl) .refl (Planned.ofBool_ne_error succeed))

/-- A covered tick enters the node, runs a script that fails fast and leaves the
node. -/
theorem PassM.script_of_tick {setting : Setting α} {tree : Tree} {node : Node}
    {before after : Pass α} {fuel : Nat} {status : Status}
    (covered : ∀ budget, setting.config.maxStepsPerTick = some budget →
      before.steps < budget.toNat)
    (ended : tick setting (fuel + 1) tree node before = some (status, after)) :
    ∃ (script : Script α Status) (body : Pass α),
      (∀ visit, update setting fuel visit tree node
        (enter setting tree node (before.accept (tree.refTo node))) =
          script.run visit) ∧
      script.FailFast setting tree node .error
        (enter setting tree node (before.accept (tree.refTo node))) ∧
      script.run (tick setting fuel) = some (status, body) ∧
      after = leave setting tree node status body := by
  obtain ⟨body, updated, left⟩ := updated_of_tick covered ended
  obtain ⟨script, same, failFast⟩ := planned_update setting fuel tree node
    (enter setting tree node (before.accept (tree.refTo node)))
  exact ⟨script, body, same, failFast, (same _).symm.trans updated, left⟩

end BehaviorTree
