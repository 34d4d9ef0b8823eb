import BehaviorTree.Proofs.Pass.Waiting

/-!
# Results of Parallels

A Parallel keeps the latest result of each child as long as its activation
lasts.  So what each result decides is told by the replies to all updates of the
activation, and an update visits the children that have not come to an end.
-/

namespace BehaviorTree

open BehaviorTree.Pass

/-- What the visits from a position on do to the results, and what they decide,
if anything. -/
inductive Pass.Gathers (composite : Node) (spec : ParallelSpec) :
    Nat → List (Option Status) → Replies → Option Status →
    List (Option Status) → Prop where
  | past {position : Nat} {results : List (Option Status)} :
      composite.children.length ≤ position →
      Gathers composite spec position results [] none results
  | skips {position : Nat} {results final : List (Option Status)}
      {replies : Replies} {verdict : Option Status} :
      position < composite.children.length →
      PassM.isSettled (some results) position = true →
      Gathers composite spec (position + 1) results replies verdict final →
      Gathers composite spec position results replies verdict final
  | decides {position : Nat} {results : List (Option Status)}
      {child : NodeHash} {status verdict : Status} :
      composite.children[position]? = some child →
      PassM.isSettled (some results) position = false →
      spec.verdict position status (results.set position (some status)) =
        some verdict →
      Gathers composite spec position results [(child, status)] (some verdict)
        (results.set position (some status))
  | goesOn {position : Nat} {results final : List (Option Status)}
      {child : NodeHash} {status : Status} {replies : Replies}
      {verdict : Option Status} :
      composite.children[position]? = some child →
      PassM.isSettled (some results) position = false →
      spec.verdict position status (results.set position (some status)) = none →
      Gathers composite spec (position + 1)
        (results.set position (some status)) replies verdict final →
      Gathers composite spec position results ((child, status) :: replies)
        verdict final

/-- What one update of a Parallel does. -/
def Pass.Attends (composite : Node) : Conduct :=
  fun kind replies result changed => ∃ results spec verdict final,
    kind = .parallel results spec ∧ changed = .parallel final spec ∧
      Gathers composite spec 0 (resizeResults results composite.children.length)
        replies verdict final ∧
      result = verdict.getD (spec.conclusion final)

namespace Pass

variable {α : Type} {setting : Setting α} {home : Tree} {composite : Node}
  {before after : Pass α} {results : List (Option Status)} {spec : ParallelSpec}

theorem parallelResults_eq
    (holds : before.board.Holds composite.hash (.parallel results spec)) :
    before.parallelResults composite = some results := by
  obtain ⟨state, present, isKind⟩ := holds
  rw [parallelResults, present]
  dsimp only
  rw [isKind]

theorem recordResult_eq (home : Tree)
    (holds : before.board.Holds composite.hash (.parallel results spec))
    (index : Nat) (status : Status) :
    ∃ recorded, before.recordResult home composite index status =
        (results.set index (some status), recorded) ∧
      recorded.log = before.log ∧
      recorded.board.Holds composite.hash
        (.parallel (results.set index (some status)) spec) := by
  obtain ⟨state, present, isKind⟩ := holds
  rw [recordResult, present]
  dsimp only
  rw [isKind]
  exact ⟨_, rfl, rfl, _,
    (Blackboard.states_setState _ _ _ _).trans (if_pos rfl), rfl⟩

theorem prepareParallel_eq
    (isKind : (before.board.stateFor home composite).kind =
      .parallel results spec) :
    ∃ prepared, before.prepareParallel home composite = (spec, prepared) ∧
      prepared.log = before.log ∧
      prepared.board.Holds composite.hash
        (.parallel (resizeResults results composite.children.length) spec) := by
  have ensured : (before.ensureState home composite).1.kind =
      .parallel results spec := isKind
  rw [prepareParallel]
  dsimp only
  rw [ensured]
  exact ⟨_, rfl, rfl, _, (Writes.updateState _ _).here, rfl⟩

section Update

variable {configured : ParallelSpec}
  (isParallel : composite.kind = .parallel configured)
include isParallel

theorem fits_parallel :
    (KindState.parallel results spec).fits composite.kind = true := by
  rw [isParallel]
  rfl

variable (wellFormed : setting.forest.WellFormed)
  (isScoped : setting.forest.Scoped)
  (composed : setting.forest.Located home composite)
  (apart : ∀ other, setting.forest.Leads (home.refTo composite) other →
    other.hash ≠ composite.hash)
include wellFormed isScoped composed apart

theorem gathers_of_visitParallel {fuel position count : Nat}
    {verdict : Option Status}
    (holds : before.board.Holds composite.hash (.parallel results spec))
    (enough : count = composite.children.length - position)
    (ended : PassM.visitParallel (PassM.tick setting fuel) home composite spec
      (List.range' position count) before = some (verdict, after)) :
    ∃ replies final, Tells composite replies before after ∧
      after.board.Holds composite.hash (.parallel final spec) ∧
      Gathers composite spec position results replies verdict final := by
  induction count generalizing before position results with
  | zero =>
      cases ended
      exact ⟨[], results, .of_same rfl, holds, .past (by omega)⟩
  | succ count induction =>
      rw [List.range'_succ, PassM.visitParallel, PassM.get_bind,
        parallelResults_eq holds] at ended
      have within : position < composite.children.length := by omega
      have listed : composite.children[position]? =
          some composite.children[position] := List.getElem?_eq_getElem within
      by_cases settled : PassM.isSettled (some results) position = true
      · rw [if_pos settled] at ended
        obtain ⟨replies, final, tells, holds, gathers⟩ :=
          induction holds (by omega) ended
        exact ⟨replies, final, tells, holds, .skips within settled gathers⟩
      have unsettled := Bool.eq_false_iff.mpr settled
      rw [if_neg settled] at ended
      obtain ⟨child, isChild⟩ := wellFormed.exists_childAt composed within
      rw [isChild] at ended
      dsimp only at ended
      rw [PassM.bind_apply] at ended
      obtain ⟨⟨status, middle⟩, ticked, ended⟩ :=
        Option.bind_eq_some_iff.mp ended
      dsimp only at ended
      have tickedChild : PassM.tickChild (PassM.tick setting fuel) home composite
          position before = some (status, middle) := by
        rw [PassM.tickChild, isChild]
        exact ticked
      have consults := consults_of_tickChild wellFormed isScoped composed apart
        (by rw [isParallel]; rfl) tickedChild
      have tells := consults.tells
      rw [Node.replyAt_eq listed] at tells
      obtain ⟨recorded, isRecorded, log, holds⟩ :=
        recordResult_eq home (consults.holds holds) position status
      have told := tells.then_silence (.of_same log)
      rw [PassM.modifyGet_bind, isRecorded] at ended
      dsimp only at ended
      cases decided : spec.verdict position status
          (results.set position (some status)) with
      | some verdict =>
          rw [decided] at ended
          cases ended
          exact ⟨_, _, told, holds, .decides listed unsettled decided⟩
      | none =>
          rw [decided] at ended
          obtain ⟨replies, final, laterTells, holds, gathers⟩ :=
            induction holds (by omega) ended
          exact ⟨_, final, told.trans laterTells, holds,
            .goesOn listed unsettled decided gathers⟩

theorem obeys_attends : Obeys setting home composite (Attends composite) := by
  intro fuel result opened body updated
  obtain ⟨results, spec, isKind⟩ := exists_parallel_of_fits isParallel
    (opened.board.fits_stateFor home composite)
  rw [PassM.update, isParallel] at updated
  dsimp only at updated
  obtain ⟨prepared, isPrepared, log, holds⟩ := prepareParallel_eq isKind
  rw [PassM.parallel, PassM.modifyGet_bind, isPrepared, PassM.bind_apply]
    at updated
  obtain ⟨⟨verdict, visited⟩, ended, updated⟩ :=
    Option.bind_eq_some_iff.mp updated
  rw [List.range_eq_range'] at ended
  obtain ⟨replies, final, tells, holds, gathers⟩ :=
    gathers_of_visitParallel isParallel wellFormed isScoped composed apart holds
      rfl ended
  have told : Tells composite replies opened visited :=
    (Tells.of_same log).after_silence tells
  have isFinal := holds.kind_stateFor (fits_parallel isParallel) home
  have concluded : result = verdict.getD (spec.conclusion final) ∧
      body = visited := by
    cases verdict with
    | some verdict =>
        cases updated
        exact ⟨rfl, rfl⟩
    | none =>
        dsimp only at updated
        rw [PassM.get_bind, parallelResults_eq holds] at updated
        cases updated
        exact ⟨rfl, rfl⟩
  obtain ⟨isResult, rfl⟩ := concluded
  exact ⟨replies, told, results, spec, verdict, final, isKind, isFinal, gathers,
    isResult⟩

end Update

end Pass

namespace Replies

/-- The latest result of a child. -/
def latest (told : Replies) (child : NodeHash) : Option Status :=
  (told.reverse.find? fun reply => reply.1 = child).map Prod.snd

/-- The child has come to an end. -/
def settled (told : Replies) (child : NodeHash) : Bool :=
  told.any fun reply => reply.1 = child && reply.2.isTerminal

/-- How many children have a result as their latest one. -/
def countLatest (children : List NodeHash) (told : Replies) (wanted : Status) :
    Nat :=
  children.countP fun child => latest told child = some wanted

/-- What the last of the replies decides for a Parallel, if anything. -/
def decision (children : List NodeHash) (spec : ParallelSpec)
    (told : Replies) : Option Status :=
  told.getLast?.bind fun (child, status) =>
    if status = .error then some .error
    else if spec.primaryChild.any
        (fun primary => children[primary.toNat]? = some child) ∧
        status.isTerminal then some status
    else if spec.requiredSuccesses.any
        (·.toNat ≤ countLatest children told .success) then some .success
    else if spec.requiredFailures.any
        (·.toNat ≤ countLatest children told .failure) then some .failure
    else none

variable {told : Replies} {child other : NodeHash} {status : Status}
  {children : List NodeHash} {position : Nat}

theorem latest_snoc :
    latest (told ++ [(child, status)]) other =
      if child = other then some status else latest told other := by
  rw [latest, latest, List.reverse_append, List.reverse_singleton,
    List.singleton_append, List.find?_cons]
  by_cases same : child = other <;> simp [same]

theorem settled_snoc :
    settled (told ++ [(child, status)]) other =
      (settled told other || (child = other && status.isTerminal)) := by
  simp [settled]

theorem settled_eq_false_iff : settled told child = false ↔
    ∀ former ∈ told, former.1 = child → former.2 = .running := by
  have terminal : ∀ status : Status, status.isTerminal = false ↔
      status = .running := by
    intro status
    cases status <;> simp [Status.isTerminal]
  simp [settled, terminal]

theorem settled_eq (once : Once told) (child : NodeHash) :
    settled told child = (latest told child).any Status.isTerminal := by
  induction told using List.reverseRecOn with
  | nil => rfl
  | append_singleton told reply induction =>
      obtain ⟨other, status⟩ := reply
      rw [settled_snoc, latest_snoc]
      by_cases same : other = child
      · subst same
        have ran := settled_eq_false_iff.mpr (once told (other, status) [] rfl)
        simp [ran]
      · simp [same, induction (Throughout.of_append once)]

section Listed

variable (distinct : children.Nodup)
  (listed : children[position]? = some child)
include distinct listed

theorem getElem?_eq_some_iff_eq (index : Nat) :
    children[index]? = some child ↔ index = position := by
  obtain ⟨within, _⟩ := List.getElem?_eq_some_iff.mp listed
  refine ⟨fun found => ?_, fun same => same ▸ listed⟩
  exact (List.getElem?_inj within distinct).mp (listed.trans found.symm) |>.symm

theorem map_latest_snoc (told : Replies) (status : Status) :
    children.map (latest (told ++ [(child, status)])) =
      (children.map (latest told)).set position (some status) := by
  refine List.ext_getElem? fun index => ?_
  rw [List.getElem?_set, List.getElem?_map, List.getElem?_map, List.length_map]
  have sole := getElem?_eq_some_iff_eq distinct listed index
  by_cases same : position = index
  · subst same
    obtain ⟨within, _⟩ := List.getElem?_eq_some_iff.mp listed
    rw [if_pos rfl, if_pos within, listed]
    simp [latest_snoc]
  · rw [if_neg same]
    cases found : children[index]? with
    | none => rfl
    | some other =>
        have differs : child ≠ other := fun isOther =>
          same (sole.mp (found.trans (congrArg some isOther.symm))).symm
        simp [latest_snoc, differs]

omit distinct in
theorem isSettled_map_latest (once : Once told) :
    PassM.isSettled (some (children.map (latest told))) position =
      settled told child := by
  rw [PassM.isSettled, Option.bind_some, List.getElem?_map, listed,
    settled_eq once, Option.map_some]
  cases latest told child <;> rfl

/-- What a Parallel reads off the latest results is what the last reply
decides. -/
theorem verdict_eq_decision (spec : ParallelSpec) :
    spec.verdict position status
        (children.map (latest (told ++ [(child, status)]))) =
      decision children spec (told ++ [(child, status)]) := by
  have counts : ∀ wanted : Status,
      (children.map (latest (told ++ [(child, status)]))).count (some wanted) =
        countLatest children (told ++ [(child, status)]) wanted := by
    intro wanted
    rw [countLatest, List.count_eq_countP, List.countP_map]
    exact List.countP_congr fun _ _ => by simp
  have primary : spec.primaryChild.map (·.toNat) = some position ↔
      spec.primaryChild.any
        (fun primary => children[primary.toNat]? = some child) = true := by
    simp only [getElem?_eq_some_iff_eq distinct listed]
    cases spec.primaryChild <;> simp
  rw [ParallelSpec.verdict, decision, List.getLast?_concat, Option.bind_some]
  simp only [counts, primary]

end Listed

end Replies

/-- The children that have not come to an end. -/
def unsettled (children : List NodeHash) (told : Replies) : List NodeHash :=
  children.filter fun child => !Replies.settled told child

/-- What one update of a Parallel does, after the replies to earlier updates of
its activation. -/
structure Gathered (children : List NodeHash) (spec : ParallelSpec)
    (earlier replies : Replies) (result : Status) : Prop where
  inOrder : replies.map Prod.fst <+: unsettled children earlier
  once : Replies.Once (earlier ++ replies)
  goesOn : ∀ done rest, replies = done ++ rest → done ≠ [] → rest ≠ [] →
    Replies.decision children spec (earlier ++ done) = none
  decides : replies ≠ [] →
    ∀ verdict ∈ Replies.decision children spec (earlier ++ replies),
      result = verdict
  /-- Unless a result is decided, no child is left out. -/
  concludes : replies = [] ∨
      Replies.decision children spec (earlier ++ replies) = none →
    replies.map Prod.fst = unsettled children earlier ∧
      result =
        if ∃ child ∈ children,
            Replies.latest (earlier ++ replies) child = some .running
        then .running else .ofBool spec.defaultSuccess

/-- What the visits from a position on have done. -/
structure VisitedFrom (children : List NodeHash) (spec : ParallelSpec)
    (position : Nat) (told replies : Replies) (verdict : Option Status) :
    Prop where
  inOrder : replies.map Prod.fst <+: unsettled (children.drop position) told
  once : Replies.Once (told ++ replies)
  decisions : ∀ done rest, replies = done ++ rest → done ≠ [] →
    Replies.decision children spec (told ++ done) =
      if rest = [] then verdict else none
  silent : replies = [] → verdict = none
  complete : verdict = none →
    replies.map Prod.fst = unsettled (children.drop position) told

section Visits

variable {children : List NodeHash} {spec : ParallelSpec} {position : Nat}
  {told replies : Replies} {child : NodeHash} {status : Status}

theorem drop_eq_cons (listed : children[position]? = some child) :
    children.drop position = child :: children.drop (position + 1) := by
  obtain ⟨within, rfl⟩ := List.getElem?_eq_some_iff.mp listed
  exact List.drop_eq_getElem_cons within

theorem unsettled_snoc (distinct : children.Nodup)
    (listed : children[position]? = some child) (status : Status) :
    unsettled (children.drop (position + 1)) (told ++ [(child, status)]) =
      unsettled (children.drop (position + 1)) told := by
  have fresh : child ∉ children.drop (position + 1) := by
    have later := (distinct.sublist (List.drop_sublist position _))
    rw [drop_eq_cons listed] at later
    exact (List.nodup_cons.mp later).1
  refine List.filter_congr fun other member => ?_
  have differs : child ≠ other := fun same => fresh (same ▸ member)
  rw [Replies.settled_snoc]
  simp [differs]

namespace VisitedFrom

variable {verdict : Option Status}

theorem past (once : Replies.Once told) (beyond : children.length ≤ position) :
    VisitedFrom children spec position told [] none := by
  have none : unsettled (children.drop position) told = [] := by
    rw [List.drop_eq_nil_of_le beyond]
    rfl
  refine ⟨List.nil_prefix, by rwa [List.append_nil], fun done rest split some => ?_,
    fun _ => rfl, fun _ => none.symm⟩
  exact absurd (List.append_eq_nil_iff.mp split.symm).1 some

theorem skip
    (visited : VisitedFrom children spec (position + 1) told replies verdict)
    (listed : children[position]? = some child)
    (settled : Replies.settled told child = true) :
    VisitedFrom children spec position told replies verdict := by
  have same : unsettled (children.drop position) told =
      unsettled (children.drop (position + 1)) told := by
    rw [drop_eq_cons listed, unsettled,
      List.filter_cons_of_neg (by simp [settled])]
    rfl
  exact
    { visited with
      inOrder := same ▸ visited.inOrder
      complete := same ▸ visited.complete }

section Visit

variable (once : Replies.Once told)
  (listed : children[position]? = some child)
  (pending : Replies.settled told child = false)
include listed pending

theorem unsettled_eq_cons : unsettled (children.drop position) told =
    child :: unsettled (children.drop (position + 1)) told := by
  rw [drop_eq_cons listed, unsettled, List.filter_cons_of_pos (by simp [pending])]
  rfl

include once in
theorem last {verdict : Status}
    (decided : Replies.decision children spec (told ++ [(child, status)]) =
      some verdict) :
    VisitedFrom children spec position told [(child, status)] (some verdict) where
  inOrder := by
    rw [unsettled_eq_cons listed pending]
    exact List.prefix_append [_] _
  once := Throughout.snoc once (Replies.settled_eq_false_iff.mp pending)
  decisions done rest split some := by
    cases done with
    | nil => exact absurd rfl some
    | cons first done =>
        obtain ⟨rfl, ends⟩ := List.cons.inj split
        obtain ⟨rfl, rfl⟩ := List.append_eq_nil_iff.mp ends.symm
        exact decided
  silent := nofun
  complete := nofun

theorem next (distinct : children.Nodup)
    (undecided : Replies.decision children spec (told ++ [(child, status)]) =
      none)
    (visited : VisitedFrom children spec (position + 1)
      (told ++ [(child, status)]) replies verdict) :
    VisitedFrom children spec position told ((child, status) :: replies)
      verdict := by
  obtain ⟨inOrder, laterOnce, decisions, silent, complete⟩ := visited
  rw [unsettled_snoc distinct listed] at inOrder complete
  rw [List.append_assoc] at laterOnce
  refine ⟨?_, laterOnce, fun done rest split some => ?_, nofun,
    fun isNone => ?_⟩
  · rw [unsettled_eq_cons listed pending]
    exact List.cons_prefix_cons.mpr ⟨rfl, inOrder⟩
  · cases done with
    | nil => exact absurd rfl some
    | cons first done =>
        obtain ⟨rfl, rfl⟩ := List.cons.inj split
        cases done with
        | nil =>
            rw [undecided]
            split
            · next none => exact (silent none).symm
            · rfl
        | cons second done =>
            have later := decisions (second :: done) rest rfl nofun
            rwa [List.append_assoc] at later
  · rw [unsettled_eq_cons listed pending, List.map_cons, complete isNone]

end Visit

end VisitedFrom

end Visits

namespace Pass.Gathers

variable {composite : Node} {spec : ParallelSpec} {position : Nat}
  {results final : List (Option Status)} {told replies : Replies}
  {verdict : Option Status}

/-- Visits that begin with the latest results go by them and end with them. -/
theorem visitedFrom (distinct : composite.children.Nodup)
    (gathers : Gathers composite spec position results replies verdict final)
    (areLatest : results = composite.children.map (Replies.latest told))
    (once : Replies.Once told) :
    final = composite.children.map (Replies.latest (told ++ replies)) ∧
      VisitedFrom composite.children spec position told replies verdict := by
  induction gathers generalizing told with
  | past beyond =>
      rw [List.append_nil]
      exact ⟨areLatest, .past once beyond⟩
  | skips within settled _ induction =>
      subst areLatest
      have listed := List.getElem?_eq_getElem within
      rw [Replies.isSettled_map_latest listed once] at settled
      obtain ⟨isFinal, visited⟩ := induction rfl once
      exact ⟨isFinal, visited.skip listed settled⟩
  | decides listed pending decided =>
      subst areLatest
      rw [Replies.isSettled_map_latest listed once] at pending
      rw [← Replies.map_latest_snoc distinct listed] at decided ⊢
      rw [Replies.verdict_eq_decision distinct listed] at decided
      exact ⟨rfl, .last once listed pending decided⟩
  | @goesOn _ _ _ child status _ _ listed pending undecided _ induction =>
      subst areLatest
      rw [Replies.isSettled_map_latest listed once] at pending
      have isNext :=
        (Replies.map_latest_snoc distinct listed told status).symm
      rw [isNext, Replies.verdict_eq_decision distinct listed] at undecided
      obtain ⟨isFinal, visited⟩ := induction isNext
        (Throughout.snoc once (Replies.settled_eq_false_iff.mp pending))
      rw [List.append_assoc] at isFinal
      exact ⟨isFinal, .next listed pending distinct undecided visited⟩

end Pass.Gathers

namespace VisitedFrom

variable {children : List NodeHash} {spec : ParallelSpec}
  {told replies : Replies} {verdict : Option Status}

/-- A whole update visits from the first child on. -/
theorem gathered
    (visited : VisitedFrom children spec 0 told replies verdict) :
    Gathered children spec told replies (verdict.getD
      (spec.conclusion (children.map (Replies.latest (told ++ replies))))) := by
  obtain ⟨inOrder, once, decisions, silent, complete⟩ := visited
  have decides : replies ≠ [] →
      Replies.decision children spec (told ++ replies) = verdict := fun some => by
    rw [decisions replies [] (List.append_nil _).symm some, if_pos rfl]
  refine ⟨inOrder, once, fun done rest split someDone someRest => ?_,
    fun some result isResult => ?_, fun undecided => ?_⟩
  · rw [decisions done rest split someDone, if_neg someRest]
  · rw [decides some] at isResult
    rw [Option.mem_def.mp isResult]
    rfl
  · have isNone : verdict = none := by
      rcases undecided with none | undecided
      · exact silent none
      · by_cases none : replies = []
        · exact silent none
        · rw [← decides none, undecided]
    subst isNone
    refine ⟨complete rfl, ?_⟩
    rw [Option.getD_none, ParallelSpec.conclusion]
    simp only [List.mem_map]

end VisitedFrom

/-- A Parallel keeps the latest result of each child. -/
def KeepsResults (children : List NodeHash) (spec : ParallelSpec) : Waits :=
  fun told kind =>
    kind = .parallel (children.map (Replies.latest told)) spec ∧
      Replies.Once told

theorem resizeResults_of_length {results : List (Option Status)} {count : Nat}
    (enough : results.length = count) : resizeResults results count = results := by
  rw [resizeResults, enough, Nat.sub_self, ← enough, List.take_length]
  exact List.append_nil _

section Waiting

variable {home : Tree} {composite : Node} {spec : ParallelSpec}
  (isParallel : composite.kind = .parallel spec)
include isParallel

theorem keepsResults_begun {kind : KindState}
    (fits : kind.fits composite.kind = true) :
    KeepsResults composite.children spec []
      (begunKind home composite false kind) := by
  obtain ⟨results, former, rfl⟩ := exists_parallel_of_fits isParallel fits
  rw [begunKind, isParallel]
  exact ⟨rfl, Throughout.nil⟩

theorem proceeds_attends (distinct : composite.children.Nodup) :
    Proceeds home composite (Attends composite)
      (Gathered composite.children spec)
      (KeepsResults composite.children spec) where
  update := by
    rintro told replies result _ _ ⟨rfl, once⟩
      ⟨_, _, verdict, final, same, rfl, gathers, rfl⟩
    cases same
    rw [resizeResults_of_length (List.length_map _)] at gathers
    obtain ⟨rfl, visited⟩ := gathers.visitedFrom distinct rfl once
    exact ⟨visited.gathered, fun _ => ⟨rfl, visited.once⟩⟩
  anew fits := keepsResults_begun isParallel (fits_closedKind fits)

end Waiting

end BehaviorTree
