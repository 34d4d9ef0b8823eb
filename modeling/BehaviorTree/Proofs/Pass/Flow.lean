import BehaviorTree.Proofs.Pass.Lifecycle

/-!
# Flows

Whatever the kind of a node, its update is a sequence of asides, ticks of
children and, for a Transition, of a jump to the root of another tree.
`Pass.Flow` is this sequence with the ticks left open, so that properties of
passes are proved once and not for each kind.  Only a Parallel goes on after a
tick that came to `running`; all other kinds come to `running` as well.
-/

namespace BehaviorTree

def NodeKind.isParallel : NodeKind → Bool
  | parallel _ => true
  | _ => false

/-- A tick of a node with the pass before it, its result and the pass after. -/
abbrev Pass.Ticks (α : Type) : Type :=
  Tree → Node → Pass α → Status → Pass α → Prop

/-- What an update is made of, ticks of other nodes left open. -/
inductive Pass.Flow {α : Type} (setting : Setting α) (ticks : Pass.Ticks α)
    (tree : Tree) (node : Node) (before : Pass α) : Pass α → Prop where
  | start : Flow setting ticks tree node before before
  | aside {middle after : Pass α} :
      Flow setting ticks tree node before middle →
      Pass.Aside tree node middle after →
      Flow setting ticks tree node before after
  | child {middle after : Pass α} {child : Node} {index : Nat}
      {status : Status} :
      Flow setting ticks tree node before middle →
      node.kind.transitionTarget = none →
      tree.childAt node index = some child →
      ticks tree child middle status after →
      Flow setting ticks tree node before after
  | jump {middle after : Pass α} {selector : TreeSelector} {target : Tree}
      {status : Status} :
      Flow setting ticks tree node before middle →
      node.kind.transitionTarget = some selector →
      setting.forest.select selector = some target →
      middle.depth < setting.config.maxTransitionDepth.toNat →
      ticks target target.rootNode { middle with depth := middle.depth + 1 }
        status after →
      Flow setting ticks tree node before { after with depth := after.depth - 1 }

namespace Pass.Flow

variable {α : Type} {setting : Setting α} {tree : Tree} {node : Node}
  {before after : Pass α}

theorem mono {ticks others : Pass.Ticks α}
    (flow : Flow setting ticks tree node before after)
    (weaken : ∀ {tree node before status after},
      ticks tree node before status after →
      others tree node before status after) :
    Flow setting others tree node before after := by
  induction flow with
  | start => exact .start
  | aside _ aside induction => exact .aside induction aside
  | child _ isPlain isChild ticked induction =>
      exact .child induction isPlain isChild (weaken ticked)
  | jump _ isJump isTarget shallow ticked induction =>
      exact .jump induction isJump isTarget shallow (weaken ticked)

end Pass.Flow

namespace PassM

open BehaviorTree.Pass

variable {α β γ : Type}

/-- With enough fuel the computation has a result, and always the same. -/
def Halts (computation : Nat → PassM α β) (pass : Pass α) : Prop :=
  ∃ result bound, ∀ fuel, bound ≤ fuel → computation fuel pass = some result

namespace Halts

variable {pass : Pass α}

theorem bind {first : Nat → PassM α β} {next : Nat → β → PassM α γ}
    (halts : Halts first pass)
    (rest : ∀ fuel {value after}, first fuel pass = some (value, after) →
      Halts (fun fuel => next fuel value) after) :
    Halts (fun fuel => first fuel >>= next fuel) pass := by
  obtain ⟨⟨value, middle⟩, bound, ends⟩ := halts
  obtain ⟨result, later, endsLater⟩ := rest bound (ends bound (Nat.le_refl _))
  refine ⟨result, max bound later, fun fuel enough => ?_⟩
  have enoughFirst : bound ≤ fuel := by omega
  have enoughLater : later ≤ fuel := by omega
  change (first fuel >>= next fuel) pass = some result
  rw [bind_apply, ends fuel enoughFirst]
  exact endsLater fuel enoughLater

theorem of_succ {computation : Nat → PassM α β}
    (halts : Halts (fun fuel => computation (fuel + 1)) pass) :
    Halts computation pass := by
  obtain ⟨result, bound, ends⟩ := halts
  refine ⟨result, bound + 1, fun fuel enough => ?_⟩
  obtain ⟨rest, rfl⟩ : ∃ rest, fuel = rest + 1 := ⟨fuel - 1, by omega⟩
  exact ends rest (by omega)

theorem shift {computation : Nat → PassM α β} (halts : Halts computation pass)
    (more : Nat) : Halts (fun fuel => computation (fuel + more)) pass := by
  obtain ⟨result, bound, ends⟩ := halts
  exact ⟨result, bound, fun fuel enough => ends _ (by omega)⟩

end Halts

/-- All results of the computation satisfy `post`; if it is `total`, there is
one. -/
structure Ensures (total : Prop) (post : β → Pass α → Prop)
    (computation : Nat → PassM α β) (pass : Pass α) : Prop where
  of_eq : ∀ (fuel : Nat) {value : β} {after : Pass α},
    computation fuel pass = some (value, after) → post value after
  halts : total → Halts computation pass

namespace Ensures

variable {total : Prop} {post : β → Pass α → Prop}
  {final : γ → Pass α → Prop} {pass : Pass α}

theorem bind {first : Nat → PassM α β} {next : Nat → β → PassM α γ}
    (held : Ensures total post first pass)
    (rest : ∀ value after, post value after →
      Ensures total final (fun fuel => next fuel value) after) :
    Ensures total final (fun fuel => first fuel >>= next fuel) pass := by
  constructor
  · intro fuel value after ended
    rw [bind_apply] at ended
    obtain ⟨⟨middle, between⟩, firstEnded, ended⟩ :=
      Option.bind_eq_some_iff.mp ended
    exact (rest middle between (held.of_eq fuel firstEnded)).of_eq fuel ended
  · intro isTotal
    exact (held.halts isTotal).bind fun fuel _ _ ended =>
      (rest _ _ (held.of_eq fuel ended)).halts isTotal

theorem of_result {computation : Nat → PassM α β} {value : β} {after : Pass α}
    (known : ∀ fuel, computation fuel pass = some (value, after))
    (holds : post value after) : Ensures total post computation pass := by
  constructor
  · intro fuel found other ended
    rw [known] at ended
    cases ended
    exact holds
  · exact fun _ => ⟨(value, after), 0, fun fuel _ => known fuel⟩

theorem step {computation later : Nat → PassM α β} {middle : Pass α}
    (starts : ∀ fuel, computation fuel pass = later fuel middle)
    (rest : Ensures total post later middle) :
    Ensures total post computation pass := by
  constructor
  · exact fun fuel _ _ ended => rest.of_eq fuel ((starts fuel).symm.trans ended)
  · intro isTotal
    obtain ⟨result, bound, ends⟩ := rest.halts isTotal
    exact ⟨result, bound, fun fuel enough => (starts fuel).trans
      (ends fuel enough)⟩

theorem of_pure {value : β} (holds : post value pass) :
    Ensures total post (fun _ => (pure value : PassM α β)) pass :=
  of_result (fun _ => rfl) holds

theorem mono {weaker : β → Pass α → Prop} {computation : Nat → PassM α β}
    (held : Ensures total post computation pass)
    (weaken : ∀ value after, post value after → weaker value after) :
    Ensures total weaker computation pass :=
  ⟨fun fuel _ _ ended => weaken _ _ (held.of_eq fuel ended), held.halts⟩

theorem and_of_eq {known : β → Pass α → Prop} {computation : Nat → PassM α β}
    (held : Ensures total post computation pass)
    (knows : ∀ fuel {value after},
      computation fuel pass = some (value, after) → known value after) :
    Ensures total (fun value after => post value after ∧ known value after)
      computation pass :=
  ⟨fun fuel _ _ ended => ⟨held.of_eq fuel ended, knows fuel ended⟩, held.halts⟩

theorem shift {computation : Nat → PassM α β}
    (held : Ensures total post computation pass) (more : Nat) :
    Ensures total post (fun fuel => computation (fuel + more)) pass :=
  ⟨fun fuel => held.of_eq (fuel + more),
    fun isTotal => (held.halts isTotal).shift more⟩

theorem of_succ {computation : Nat → PassM α β}
    (fails : computation 0 pass = none)
    (held : Ensures total post (fun fuel => computation (fuel + 1)) pass) :
    Ensures total post computation pass := by
  constructor
  · intro fuel value after ended
    cases fuel with
    | zero =>
        rw [fails] at ended
        cases ended
    | succ fuel => exact held.of_eq fuel ended
  · exact fun isTotal => (held.halts isTotal).of_succ

theorem at_fuel {computation : Nat → PassM α β}
    (held : Ensures total post computation pass) (fuel : Nat) :
    Ensures False post (fun _ => computation fuel) pass :=
  ⟨fun _ => held.of_eq fuel, False.elim⟩

end Ensures

section Records

variable (tree : Tree) (node : Node) (index : Nat) (pass : Pass α)

theorem recordMem_eq :
    ∃ after, recordMem tree node index pass = some ((), after) ∧
      Aside tree node pass after := by
  refine ⟨_, rfl, .updateKind pass fun {kind changed} change => ?_⟩
  cases kind <;> cases change
  rfl

theorem recordProb_eq :
    ∃ after, recordProb tree node index pass = some ((), after) ∧
      Aside tree node pass after := by
  refine ⟨_, rfl, .updateKind pass fun {kind changed} change => ?_⟩
  cases kind <;> cases change
  rfl

theorem setRepeatCount_eq (change : UInt32 → UInt32) :
    ∃ after, setRepeatCount tree node change pass = some ((), after) ∧
      Aside tree node pass after := by
  refine ⟨_, rfl, .updateKind pass fun {kind changed} change => ?_⟩
  cases kind <;> cases change
  rfl

variable {tree node pass}

theorem aside_of_recorded {record : PassM α Unit} {after : Pass α}
    (records : ∃ found, record pass = some ((), found) ∧
      Aside tree node pass found)
    (recorded : record pass = some ((), after)) : Aside tree node pass after := by
  obtain ⟨found, isFound, aside⟩ := records
  rw [recorded] at isFound
  cases isFound
  exact aside

end Records

section Updates

variable (setting : Setting α) (visit : Nat → Visit α) (tree : Tree)
  (node : Node) (before : Pass α)

/-- A flow whose ticks are those of `visit`.  Before the update has its result,
none of them has come to `running`, unless the node is a Parallel. -/
def Along (final : Option Status) (after : Pass α) : Prop :=
  Flow setting (fun tree' node' before' status after' =>
      (∃ fuel, visit fuel tree' node' before' = some (status, after')) ∧
        (node.kind.isParallel = true ∨ final = some .running ∨
          status ≠ .running))
    tree node before after

/-- The outcome of an update. -/
def Ended (status : Status) (after : Pass α) : Prop :=
  Along setting visit tree node before (some status) after

/-- The outcome of a tick within an update: it may be what the update comes to,
and unless it is `running` the update may go on. -/
def Parted (status : Status) (after : Pass α) : Prop :=
  Ended setting visit tree node before status after ∧
    (node.kind.isParallel = true ∨ status ≠ .running →
      Along setting visit tree node before none after)

/-- All ticks halt to which the update may come, and what a Prob composite draws
from becomes less with every tick after which it may go on. -/
structure Covers : Prop where
  child : ∀ {pass : Pass α} {child : Node} {index : Nat},
    Along setting visit tree node before none pass →
    node.kind.transitionTarget = none →
    tree.childAt node index = some child →
    Halts (fun fuel => visit fuel tree child) pass
  jump : ∀ {pass : Pass α} {selector : TreeSelector} {target : Tree},
    Along setting visit tree node before none pass →
    node.kind.transitionTarget = some selector →
    setting.forest.select selector = some target →
    pass.depth < setting.config.maxTransitionDepth.toNat →
    Halts (fun fuel => visit fuel target target.rootNode)
      { pass with depth := pass.depth + 1 }
  draw : node.kind = .probSequence ∨ node.kind = .probSelector →
    ∃ load : Pass α → Nat,
      ∀ {pass after : Pass α} {child : Node} {index fuel : Nat}
        {status : Status},
      Along setting visit tree node before none pass →
      (pass.nextProbChild tree node).1 = some index →
      tree.childAt node index = some child →
      visit fuel tree child (pass.nextProbChild tree node).2 =
        some (status, after) →
      status ≠ .running → status ≠ .error →
      load after < load pass

variable {setting visit tree node before} {total : Prop}

namespace Along

theorem ends {after : Pass α}
    (along : Along setting visit tree node before none after)
    (status : Status) :
    Ended setting visit tree node before status after := by
  refine along.mono fun ⟨ticked, calm⟩ => ⟨ticked, ?_⟩
  rcases calm with isParallel | isRunning | notRunning
  · exact .inl isParallel
  · cases isRunning
  · exact .inr (.inr notRunning)

theorem aside {middle after : Pass α} {final : Option Status}
    (along : Along setting visit tree node before final middle)
    (aside : Aside tree node middle after) :
    Along setting visit tree node before final after :=
  Flow.aside along aside

/-- The update keeps a child that is running, goes on with `rest` or has its
result. -/
theorem ended_round {goOn : Status} {record : PassM α Unit}
    (records : ∀ pass, ∃ after, record pass = some ((), after) ∧
      Aside tree node pass after)
    {pass : Pass α} {tickAt rest : Nat → PassM α Status} {post : Status → Pass α → Prop}
    (ticks : Ensures total post tickAt pass)
    (parts : ∀ {status after}, post status after →
      Parted setting visit tree node before status after)
    (goesOn : ∀ {after}, goOn ≠ .running → post goOn after →
      Ensures total (Ended setting visit tree node before) rest after) :
    Ensures total (Ended setting visit tree node before)
      (fun fuel => tickAt fuel >>= fun status =>
        if status = .running then do
          record
          return status
        else if status = goOn then rest fuel
        else return status)
      pass := by
  apply ticks.bind
  intro status middle held
  have parted := parts held
  by_cases running : status = .running
  · simp only [if_pos running]
    obtain ⟨after, recorded, aside⟩ := records middle
    have kept : Ensures total (fun _ =>
        Along setting visit tree node before (some status))
        (fun _ => record) middle :=
      .of_result (fun _ => recorded) (parted.1.aside aside)
    exact kept.bind fun _ _ along => .of_pure along
  simp only [if_neg running]
  by_cases same : status = goOn
  · simp only [if_pos same]
    exact goesOn (same ▸ running) (same ▸ held)
  · simp only [if_neg same]
    exact .of_pure parted.1

variable {pass : Pass α}
  (along : Along setting visit tree node before none pass)
include along

theorem fail (message : String) :
    Ensures total
      (fun status after => status = .error ∧
        Along setting visit tree node before none after)
      (fun _ => PassM.fail message) pass :=
  .of_result (fun _ => rfl) ⟨rfl, along.aside (.addError pass message)⟩

theorem failed (message : String) :
    Ensures total (Ended setting visit tree node before)
      (fun _ => PassM.fail message) pass :=
  (along.fail message).mono fun _ _ ⟨_, failed⟩ => failed.ends _

section Plain

variable (plain : node.kind.transitionTarget = none)
  (covers : total → Covers setting visit tree node before)
include plain covers

theorem tickNode {child : Node} {index : Nat}
    (isChild : tree.childAt node index = some child) :
    Ensures total (Parted setting visit tree node before)
      (fun fuel => visit fuel tree child) pass := by
  constructor
  · intro fuel status after ticked
    constructor
    · refine .child (along.ends status) plain isChild ⟨⟨fuel, ticked⟩, ?_⟩
      by_cases running : status = .running
      · exact .inr (.inl (by rw [running]))
      · exact .inr (.inr running)
    · exact fun goesOn =>
        .child along plain isChild ⟨⟨fuel, ticked⟩, goesOn.imp_right .inr⟩
  · exact fun isTotal => (covers isTotal).child along plain isChild

theorem tickChild (index : Nat) :
    Ensures total (Parted setting visit tree node before)
      (fun fuel => PassM.tickChild (visit fuel) tree node index) pass := by
  unfold PassM.tickChild
  cases isChild : tree.childAt node index with
  | some child => exact along.tickNode plain covers isChild
  | none =>
      refine (along.fail _).mono fun status after ⟨_, failed⟩ => ?_
      exact ⟨failed.ends _, fun _ => failed⟩

theorem scan {goOn : Status} (notRunning : goOn ≠ .running)
    (indices : List Nat) :
    Ensures total (Ended setting visit tree node before)
      (fun fuel => PassM.scan (PassM.tickChild (visit fuel) tree node) goOn
        indices) pass := by
  induction indices generalizing pass with
  | nil => exact .of_pure (along.ends _)
  | cons index rest induction =>
      refine (along.tickChild plain covers index).bind
        fun status middle parted => ?_
      by_cases same : status = goOn
      · simp only [if_pos same]
        exact induction (parted.2 (.inr (same ▸ notRunning)))
      · simp only [if_neg same]
        exact .of_pure parted.1

theorem scanMem {goOn : Status} (indices : List Nat) :
    Ensures total (Ended setting visit tree node before)
      (fun fuel => PassM.scanMem (PassM.tickChild (visit fuel) tree node)
        (recordMem tree node) goOn indices) pass := by
  induction indices generalizing pass with
  | nil => exact .of_pure (along.ends _)
  | cons index rest induction =>
      refine ended_round (recordMem_eq tree node index)
        (along.tickChild plain covers index) (fun parted => parted) ?_
      exact fun notRunning parted => induction (parted.2 (.inr notRunning))

theorem resumeMem (goOn : Status) :
    Ensures total (Ended setting visit tree node before)
      (fun fuel => PassM.resumeMem (visit fuel) tree node goOn) pass := by
  have ensured := along.aside (.ensureState pass)
  refine .step (fun _ => modifyGet_bind _ _ _) ?_
  cases kind : (pass.ensureState tree node).1.kind with
  | mem index => exact ensured.scanMem plain covers _
  | _ =>
      refine .step (fun _ => modify_bind _ _ _) ?_
      exact (ensured.aside (.note _ rfl)).scanMem plain covers _

section Drawing

variable (prob : node.kind = .probSequence ∨ node.kind = .probSelector)
include prob

theorem ended_drawLoop (goOn : Status) (fuel count : Nat) :
    Ensures False (Ended setting visit tree node before)
      (fun _ => PassM.drawLoop (PassM.tickChild (visit fuel) tree node) tree
        node goOn count) pass := by
  induction count generalizing pass with
  | zero => exact ⟨fun _ _ _ ended => (nomatch ended), False.elim⟩
  | succ count induction =>
      have drawn := along.aside (.nextProbChild pass prob)
      refine .step (fun _ => modifyGet_bind _ _ _) ?_
      cases (pass.nextProbChild tree node).1 with
      | none => exact .of_pure (drawn.ends _)
      | some index =>
          have ticks := drawn.tickChild plain covers index
          refine ended_round (recordProb_eq tree node index)
            (ticks.at_fuel fuel) (fun parted => parted) ?_
          exact fun notRunning parted =>
            induction (parted.2 (.inr notRunning))

/-- The number of draws is the fuel, and the ticks have some more of it. -/
theorem total_drawLoop (isTotal : total) {goOn : Status}
    (noError : goOn ≠ .error) (more : Nat) :
    Ensures total (Ended setting visit tree node before)
      (fun fuel => PassM.drawLoop
        (PassM.tickChild (visit (fuel + more)) tree node) tree node goOn fuel)
      pass := by
  obtain ⟨load, decreases⟩ := (covers isTotal).draw prob
  induction left : load pass using Nat.strongRecOn generalizing pass more with
  | _ left induction =>
      have drawn := along.aside (.nextProbChild pass prob)
      refine .of_succ rfl (.step (fun _ => modifyGet_bind _ _ _) ?_)
      cases next : (pass.nextProbChild tree node).1 with
      | none => exact .of_pure (drawn.ends _)
      | some index =>
          have decreases : ∀ (fuel : Nat) {status : Status} {after : Pass α},
              PassM.tickChild (visit fuel) tree node index
                (pass.nextProbChild tree node).2 = some (status, after) →
              status ≠ .running → status ≠ .error → load after < load pass := by
            intro fuel status after ended notRunning noError
            unfold PassM.tickChild at ended
            cases isChild : tree.childAt node index with
            | some child =>
                rw [isChild] at ended
                exact decreases along next isChild ended notRunning noError
            | none =>
                rw [isChild] at ended
                cases ended
                exact absurd rfl noError
          have ticks := (drawn.tickChild plain covers index).and_of_eq decreases
          simp only [Nat.add_right_comm _ 1 more]
          refine ended_round (recordProb_eq tree node index)
            (ticks.shift (more + 1)) And.left ?_
          intro after notRunning ⟨parted, less⟩
          exact induction (load after) (left ▸ less notRunning noError)
            (parted.2 (.inr notRunning)) (more + 1) rfl

theorem scanProb {goOn : Status} (noError : goOn ≠ .error) :
    Ensures total (Ended setting visit tree node before)
      (fun fuel => PassM.scanProb fuel (visit fuel) tree node goOn) pass := by
  have ensured := along.aside (.ensureState pass)
  refine .step (fun _ => modifyGet_bind _ _ _) ?_
  constructor
  · intro fuel
    exact (ensured.ended_drawLoop plain covers prob goOn fuel fuel).of_eq fuel
  · intro isTotal
    exact (ensured.total_drawLoop plain covers prob isTotal noError 0).halts
      isTotal

end Drawing

theorem visitParallel {configured : ParallelSpec}
    (isParallel : node.kind = .parallel configured) (spec : ParallelSpec)
    (indices : List Nat) :
    Ensures total (fun _ => Along setting visit tree node before none)
      (fun fuel => PassM.visitParallel (visit fuel) tree node spec indices)
      pass := by
  induction indices generalizing pass with
  | nil => exact .of_pure along
  | cons index rest induction =>
      refine .step (fun _ => get_bind _ _) ?_
      cases isSettled (pass.parallelResults node) index with
      | true => exact induction along
      | false =>
          simp only [if_neg Bool.false_ne_true]
          cases isChild : tree.childAt node index with
          | none =>
              apply (along.fail _).bind
              intro status after failed
              exact .of_pure failed.2
          | some child =>
              refine (along.tickNode plain covers isChild).bind
                fun status middle parted => ?_
              refine .step (fun _ => modifyGet_bind _ _ _) ?_
              have recorded := (parted.2 (.inl (by rw [isParallel]; rfl))).aside
                (.recordResult middle isParallel index status)
              cases spec.verdict index status
                  (middle.recordResult tree node index status).1 with
              | some verdict => exact .of_pure recorded
              | none => exact induction recorded

theorem parallel {configured : ParallelSpec}
    (isParallel : node.kind = .parallel configured) :
    Ensures total (Ended setting visit tree node before)
      (fun fuel => PassM.parallel (visit fuel) tree node) pass := by
  have prepared := along.aside (.prepareParallel pass)
  refine .step (fun _ => modifyGet_bind _ _ _) ?_
  refine (prepared.visitParallel plain covers isParallel _ _).bind
    fun verdict after visited => ?_
  cases verdict with
  | some status => exact .of_pure (visited.ends status)
  | none =>
      refine .step (fun _ => get_bind _ _) ?_
      exact .of_pure (visited.ends _)

theorem delegate {change : Status → Status}
    (running : change .running = .running) :
    Ensures total (Ended setting visit tree node before)
      (fun fuel => PassM.delegate (visit fuel) tree node change) pass := by
  unfold PassM.delegate
  cases isChild : tree.childAt node 0 with
  | none => exact along.failed _
  | some child =>
      refine (along.tickNode plain covers isChild).bind
        fun status after parted => ?_
      apply Ensures.of_pure
      by_cases isRunning : status = .running
      · rw [isRunning, running]
        exact isRunning ▸ parted.1
      · exact (parted.2 (.inr isRunning)).ends _

theorem repeater :
    Ensures total (Ended setting visit tree node before)
      (fun fuel => PassM.repeater (visit fuel) tree node) pass := by
  have sets : ∀ (change : UInt32 → UInt32) (status : Status) {pass : Pass α},
      Along setting visit tree node before none pass →
      Ensures total (Ended setting visit tree node before)
        (fun _ => (do
          setRepeatCount tree node change
          return status : PassM α Status)) pass := by
    intro change status pass along
    obtain ⟨after, isSet, aside⟩ := setRepeatCount_eq tree node pass change
    have kept : Ensures total
        (fun _ => Along setting visit tree node before none)
        (fun _ => setRepeatCount tree node change) pass :=
      .of_result (fun _ => isSet) (along.aside aside)
    exact kept.bind fun _ _ along => .of_pure (along.ends _)
  have counts : ∀ (repeats count : UInt32) {pass : Pass α},
      Along setting visit tree node before none pass →
      Ensures total (Ended setting visit tree node before)
        (fun fuel => (if repeats ≤ count then do
            setRepeatCount tree node fun _ => 0
            return .success
          else do
            let status ← PassM.tickChild (visit fuel) tree node 0
            if status = .success ∨ status = .failure then
              setRepeatCount tree node (· + 1)
              return .running
            else return status : PassM α Status)) pass := by
    intro repeats count pass along
    by_cases reached : repeats ≤ count
    · simp only [if_pos reached]
      exact sets _ _ along
    simp only [if_neg reached]
    apply (along.tickChild plain covers 0).bind
    intro status middle parted
    by_cases terminal : status = .success ∨ status = .failure
    · have notRunning : status ≠ .running := by
        rcases terminal with same | same <;> simp [same]
      simp only [if_pos terminal]
      exact sets _ _ (parted.2 (.inr notRunning))
    · simp only [if_neg terminal]
      exact .of_pure parted.1
  have ensured := along.aside (.ensureState pass)
  refine .step (fun _ => modifyGet_bind _ _ _) ?_
  cases kind : (pass.ensureState tree node).1.kind with
  | repeater repeats count => exact counts repeats count ensured
  | _ =>
      refine .step (fun _ => modify_bind _ _ _) ?_
      exact counts 0 0 (ensured.aside (.note _ rfl))

theorem limiter :
    Ensures total (Ended setting visit tree node before)
      (fun fuel => PassM.limiter (visit fuel) tree node) pass := by
  have ensured := along.aside (.ensureState pass)
  have fits := Blackboard.fits_stateFor pass.board tree node
  refine .step (fun _ => modifyGet_bind _ _ _) ?_
  cases kind : (pass.ensureState tree node).1.kind with
  | limiter limit remaining =>
      dsimp only
      by_cases spent : remaining = 0
      · simp only [if_pos spent]
        exact .of_pure (ensured.ends _)
      simp only [if_neg spent]
      refine .step (fun _ => modify_bind _ _ _) ?_
      have spends : Aside tree node (pass.ensureState tree node).2
          ((pass.ensureState tree node).2.updateState tree node fun state =>
            { state with kind := .limiter limit (remaining - 1) }) := by
        refine .of_write _ _ rfl rfl rfl rfl ?_
        have same : (pass.board.stateFor tree node).kind =
            .limiter limit remaining := kind
        rw [same] at fits
        exact fits
      exact (ensured.aside spends).delegate plain covers rfl
  | _ =>
      refine .step (fun _ => modify_bind _ _ _) ?_
      exact .of_pure ((ensured.aside (.note _ rfl)).ends _)

theorem rootNode :
    Ensures total (Ended setting visit tree node before)
      (fun fuel => PassM.rootNode (visit fuel) tree node) pass := by
  unfold PassM.rootNode
  cases isChild : tree.childAt node 0 with
  | none => exact along.failed _
  | some child =>
      exact (along.tickNode plain covers isChild).mono fun _ _ parted => parted.1

theorem allocator (resources : List String) :
    Ensures total (Ended setting visit tree node before)
      (fun fuel => PassM.allocator (visit fuel) tree node resources) pass := by
  refine .step (fun _ => get_bind _ _) ?_
  cases resources.any pass.board.globals.isTaken with
  | true => exact .of_pure (along.ends _)
  | false => exact along.delegate plain covers rfl

end Plain

theorem ask (predicate : String) :
    Ensures total (fun _ => Along setting visit tree node before none)
      (fun _ => PassM.ask setting node predicate) pass := by
  refine .step (fun _ => get_bind _ _) ?_
  cases setting.behaviors.check predicate pass.agent pass.board.globals with
  | some answered =>
      refine .of_result (fun _ => rfl) ?_
      exact along.aside (.of_states rfl rfl rfl rfl rfl ⟨[], by simp [log]⟩)
  | none =>
      apply (along.fail _).bind
      intro status after failed
      exact .of_pure failed.2

theorem verifier (plain : node.kind.transitionTarget = none)
    (covers : total → Covers setting visit tree node before)
    (predicate : String) :
    Ensures total (Ended setting visit tree node before)
      (fun fuel => PassM.verifier setting (visit fuel) tree node predicate)
      pass := by
  apply (along.ask predicate).bind
  intro answer after asked
  rcases answer with _ | _ | _
  · exact .of_pure (asked.ends _)
  · exact .of_pure (asked.ends _)
  · exact asked.delegate plain covers rfl

theorem condition (predicate : String) :
    Ensures total (Ended setting visit tree node before)
      (fun _ => PassM.condition setting node predicate) pass := by
  apply (along.ask predicate).bind
  intro answer after asked
  cases answer with
  | none => exact .of_pure (asked.ends _)
  | some answer => exact .of_pure (asked.ends _)

theorem command (action : String) :
    Ensures total (Ended setting visit tree node before)
      (fun _ => PassM.command setting node action) pass := by
  refine .step (fun _ => get_bind _ _) ?_
  cases setting.behaviors.run action pass.agent pass.board.globals with
  | some done =>
      refine .of_result (fun _ => rfl) ?_
      have ran : Aside tree node pass
          ({ pass with agent := done.1, board :=
            { pass.board with globals := done.2 } }.note (.ran action)) :=
        .of_states rfl rfl rfl rfl rfl ⟨[.ran action], log_note _ _,
          by simp [Activity.isRemark]⟩
      exact (along.aside ran).ends _
  | none => exact along.failed _

theorem transition (covers : total → Covers setting visit tree node before)
    {target : Option TreeSelector}
    (isTransition : node.kind = .transition target) :
    Ensures total (Ended setting visit tree node before)
      (fun fuel => PassM.transition setting (visit fuel) node target) pass := by
  cases target with
  | none => exact along.failed _
  | some selector =>
      unfold PassM.transition
      dsimp only
      cases isTarget : setting.forest.select selector with
      | none => exact along.failed _
      | some target =>
          refine .step (fun _ => get_bind _ _) ?_
          by_cases deep :
              setting.config.maxTransitionDepth.toNat ≤ pass.depth
          · simp only [if_pos deep]
            exact along.failed _
          simp only [if_neg deep]
          refine .step (fun _ => modify_bind _ _ _) ?_
          have shallow := Nat.lt_of_not_le deep
          have jumps : node.kind.transitionTarget = some selector := by
            rw [isTransition]
            rfl
          have ticks : Ensures total (fun status after =>
              Ended setting visit tree node before status
                { after with depth := after.depth - 1 })
              (fun fuel => visit fuel target target.rootNode)
              { pass with depth := pass.depth + 1 } := by
            constructor
            · intro fuel status after ticked
              refine .jump (along.ends _) jumps isTarget shallow
                ⟨⟨fuel, ticked⟩, ?_⟩
              by_cases running : status = .running
              · exact .inr (.inl (by rw [running]))
              · exact .inr (.inr running)
            · intro isTotal
              exact (covers isTotal).jump along jumps isTarget shallow
          apply ticks.bind
          intro status after ended
          refine .step (fun _ => modify_bind _ _ _) ?_
          exact .of_pure ended

end Along

/-- An update is a flow of ticks; before its result none of them has come to
`running`, unless the node is a Parallel.  It halts if the ticks do. -/
theorem ended_update (covers : total → Covers setting visit tree node before) :
    Ensures total (Ended setting visit tree node before)
      (fun fuel => update setting fuel (visit fuel) tree node) before := by
  have along : Along setting visit tree node before none before := .start
  have plain : ∀ {kind : NodeKind}, node.kind = kind →
      kind.transitionTarget = none → node.kind.transitionTarget = none := by
    intro kind same none
    rw [same, none]
  have echoes : ∀ message : String, Along setting visit tree node before none
      (before.emit "bt.echo" node.hash message) :=
    fun message => along.aside (.emit before _ _ message)
  unfold update
  cases kind : node.kind with
  | root => exact along.rootNode (plain kind rfl) covers
  | sequence => exact along.scan (plain kind rfl) covers (by decide) _
  | selector => exact along.scan (plain kind rfl) covers (by decide) _
  | memSequence => exact along.resumeMem (plain kind rfl) covers _
  | memSelector => exact along.resumeMem (plain kind rfl) covers _
  | probSequence =>
      exact along.scanProb (plain kind rfl) covers (.inl kind) (by decide)
  | probSelector =>
      exact along.scanProb (plain kind rfl) covers (.inr kind) (by decide)
  | parallel => exact along.parallel (plain kind rfl) covers kind
  | inverter => exact along.delegate (plain kind rfl) covers rfl
  | succeeder => exact along.delegate (plain kind rfl) covers rfl
  | failer => exact along.delegate (plain kind rfl) covers rfl
  | repeater => exact along.repeater (plain kind rfl) covers
  | limiter => exact along.limiter (plain kind rfl) covers
  | allocator resources =>
      exact along.allocator (plain kind rfl) covers resources
  | verifier predicate => exact along.verifier (plain kind rfl) covers predicate
  | echoDecorator message =>
      refine .step (fun _ => modify_bind _ _ _) ?_
      exact (echoes message).delegate (plain kind rfl) covers rfl
  | condition predicate => exact along.condition predicate
  | command action => exact along.command action
  | transition target => exact along.transition covers kind
  | echoLeaf message succeed =>
      refine .step (fun _ => modify_bind _ _ _) ?_
      exact .of_pure ((echoes message).ends _)

end Updates

end PassM

end BehaviorTree
