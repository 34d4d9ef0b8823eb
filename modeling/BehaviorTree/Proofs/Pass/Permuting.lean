import Mathlib.Data.List.Perm.Subperm
import BehaviorTree.Proofs.Pass.Waiting

/-!
# Permutations of Prob composites

What a Prob composite has passed, the child that was running and the pool from
which it draws are, taken together, all its children, each of them once.  A draw
moves a child out of the pool, and a child that was running comes next without a
draw.  So the updates of one activation are parts of a single permutation of the
children, whatever their weights and the random stream.
-/

namespace BehaviorTree

open BehaviorTree.Pass

/-- A child comes next, and the pool is what is left. -/
inductive Pass.Takes : List Nat → Option Nat → Nat → List Nat → Prop where
  | again {pool : List Nat} {index : Nat} : Takes pool (some index) index pool
  | drawn {pool rest : List Nat} {index : Nat} : pool.Perm (index :: rest) →
      Takes pool none index rest

theorem Pass.Takes.perm {pool rest : List Nat} {pending : Option Nat}
    {index : Nat} (takes : Takes pool pending index rest) :
    (pending.toList ++ pool).Perm (index :: rest) := by
  cases takes with
  | again => exact .refl _
  | drawn perm => exact perm

/-- What a scan does that draws from a pool once the child that was running has
been ticked, and what it leaves of the pool. -/
inductive Pass.Deals (composite : Node) (goOn : Status) :
    List Nat → Option Nat → Replies → Status → List Nat → Option Nat → Prop where
  | spent : Deals composite goOn [] none [] goOn [] none
  | waits {pool rest : List Nat} {pending : Option Nat} {index : Nat}
      {child : NodeHash} : Takes pool pending index rest →
      composite.children[index]? = some child →
      Deals composite goOn pool pending [(child, .running)] .running rest
        (some index)
  | stops {pool rest : List Nat} {pending : Option Nat} {index : Nat}
      {child : NodeHash} {status : Status} : Takes pool pending index rest →
      composite.children[index]? = some child → status ≠ .running →
      status ≠ goOn →
      Deals composite goOn pool pending [(child, status)] status rest none
  | lacks {pool rest : List Nat} {pending : Option Nat} {index : Nat} :
      Takes pool pending index rest → composite.children[index]? = none →
      Deals composite goOn pool pending [] .error rest none
  | goesOn {pool rest left : List Nat} {pending kept : Option Nat} {index : Nat}
      {child : NodeHash} {replies : Replies} {result : Status} :
      Takes pool pending index rest → composite.children[index]? = some child →
      Deals composite goOn rest none replies result left kept →
      Deals composite goOn pool pending ((child, goOn) :: replies) result left
        kept

/-- What one update of a Prob composite does. -/
def Pass.Permutes (composite : Node) (goOn : Status) : Conduct :=
  fun kind replies result changed => ∃ weights pool pending left kept,
    kind = .prob weights pool pending ∧ changed = .prob weights left kept ∧
      Deals composite goOn (pool.map Prod.fst) pending replies result
        (left.map Prod.fst) kept

namespace Pass

variable {α : Type} {setting : Setting α} {home : Tree} {composite : Node}
  {before after : Pass α} {status goOn : Status}
  {weights : Std.ExtTreeMap NodeHash Float} {pool : List (Nat × Float)}
  {pending : Option Nat}

/-- The child that was running comes next, without a draw, or else a drawn
one. -/
theorem nextProbChild_eq (home : Tree)
    (holds : before.board.Holds composite.hash (.prob weights pool pending)) :
    (pool = [] ∧ pending = none ∧
      before.nextProbChild home composite = (none, before)) ∨
    ∃ index rest ready,
      before.nextProbChild home composite = (some index, ready) ∧
      ready.log = before.log ∧
      (∀ waiting ∈ pending, index = waiting ∧ rest = pool ∧
        ready.board.stream = before.board.stream) ∧
      ready.board.Holds composite.hash (.prob weights rest none) ∧
      Takes (pool.map Prod.fst) pending index (rest.map Prod.fst) := by
  obtain ⟨state, present, isKind⟩ := holds
  have written : ∀ written : NodeState,
      (before.board.setState composite.hash written).states[composite.hash]? =
        some written := fun written => by
    rw [Blackboard.states_setState, if_pos rfl]
  unfold nextProbChild
  rw [present]
  dsimp only
  rw [isKind]
  cases pending with
  | some index =>
      refine .inr ⟨index, pool, _, rfl, rfl, ?_, ⟨_, written _, rfl⟩, .again⟩
      rintro _ ⟨⟩
      exact ⟨rfl, rfl, rfl⟩
  | none =>
      dsimp only
      cases isDrawn : draw pool before.board.stream with
      | none => exact .inl ⟨eq_nil_of_draw isDrawn, rfl, rfl⟩
      | some drawn =>
          exact .inr ⟨drawn.index, drawn.pool, _, rfl, rfl, nofun,
            ⟨_, written _, rfl⟩, .drawn (perm_of_draw isDrawn)⟩

section Update

variable (isProb : composite.kind = .probSequence ∨
  composite.kind = .probSelector)
include isProb

theorem fits_prob : (KindState.prob weights pool pending).fits composite.kind =
    true := by
  rcases isProb with kind | kind <;> rw [kind] <;> rfl

theorem kind_of_recordProb {index : Nat}
    (holds : before.board.Holds composite.hash (.prob weights pool pending))
    (recorded : PassM.recordProb home composite index before =
      some ((), after)) :
    Tells composite [] before after ∧
      (after.board.stateFor home composite).kind =
        .prob weights pool (some index) := by
  have aside := PassM.aside_of_recorded
    (PassM.recordProb_eq home composite index before) recorded
  refine ⟨.of_aside aside, ?_⟩
  cases recorded
  exact kind_updateKind (by rw [holds.kind_stateFor (fits_prob isProb) home])
    (fits_prob isProb)

variable (wellFormed : setting.forest.WellFormed)
  (isScoped : setting.forest.Scoped)
  (composed : setting.forest.Located home composite)
  (apart : ∀ other, setting.forest.Leads (home.refTo composite) other →
    other.hash ≠ composite.hash)
include wellFormed isScoped composed apart

theorem deals_of_drawLoop {fuel count : Nat} (noError : goOn ≠ .error)
    (holds : before.board.Holds composite.hash (.prob weights pool pending))
    (ended : PassM.drawLoop (PassM.tickChild (PassM.tick setting fuel) home
      composite) home composite goOn count before = some (status, after)) :
    ∃ replies left kept, Tells composite replies before after ∧
      (after.board.stateFor home composite).kind = .prob weights left kept ∧
      Deals composite goOn (pool.map Prod.fst) pending replies status
        (left.map Prod.fst) kept := by
  induction count generalizing before pool pending with
  | zero => cases ended
  | succ count induction =>
      rw [PassM.drawLoop, PassM.modifyGet_bind] at ended
      rcases nextProbChild_eq home holds with
        ⟨rfl, rfl, isNone⟩ | ⟨index, rest, ready, isNext, log, _, hasRest, takes⟩
      · rw [isNone] at ended
        cases ended
        exact ⟨[], [], none, .of_same rfl,
          holds.kind_stateFor (fits_prob isProb) home, .spent⟩
      rw [isNext] at ended
      dsimp only at ended
      rw [PassM.bind_apply] at ended
      obtain ⟨⟨found, middle⟩, ticked, ended⟩ :=
        Option.bind_eq_some_iff.mp ended
      dsimp only at ended
      have plain : composite.kind.transitionTarget = none := by
        rcases isProb with kind | kind <;> rw [kind] <;> rfl
      have consults := consults_of_tickChild wellFormed isScoped composed apart
        plain ticked
      have isReady : Tells composite [] before ready := .of_same log
      have tells := isReady.after_silence consults.tells
      have hasStill := consults.holds hasRest
      have isStill := hasStill.kind_stateFor (fits_prob isProb) home
      cases listed : composite.children[index]? with
      | none =>
          have isError := consults.missing listed
          subst isError
          rw [if_neg (by decide), if_neg (Ne.symm noError)] at ended
          cases ended
          rw [Node.replyAt, listed] at tells
          exact ⟨[], rest, none, tells, isStill, .lacks takes listed⟩
      | some child =>
          rw [Node.replyAt_eq listed] at tells
          by_cases running : found = .running
          · subst running
            rw [if_pos rfl, PassM.bind_apply] at ended
            obtain ⟨⟨_, last⟩, recorded, ended⟩ :=
              Option.bind_eq_some_iff.mp ended
            cases ended
            obtain ⟨silent, isKind⟩ := kind_of_recordProb isProb hasStill recorded
            exact ⟨_, rest, some index, tells.then_silence silent, isKind,
              .waits takes listed⟩
          rw [if_neg running] at ended
          by_cases goesOn : found = goOn
          · subst goesOn
            rw [if_pos rfl] at ended
            obtain ⟨replies, left, kept, laterTells, isKind, deals⟩ :=
              induction hasStill ended
            exact ⟨_, left, kept, tells.trans laterTells, isKind,
              .goesOn takes listed deals⟩
          · rw [if_neg goesOn] at ended
            cases ended
            exact ⟨_, rest, none, tells, isStill,
              .stops takes listed running goesOn⟩

omit wellFormed isScoped composed apart in
theorem update_eq_scanProb (setting : Setting α) (fuel : Nat)
    (visit : PassM.Visit α) (opened : Pass α) :
    PassM.update setting fuel visit home composite opened =
      PassM.drawLoop (PassM.tickChild visit home composite) home composite
        composite.kind.continueStatus fuel
        (opened.ensureState home composite).2 := by
  have scanned : PassM.update setting fuel visit home composite opened =
      PassM.scanProb fuel visit home composite composite.kind.continueStatus
        opened := by
    rw [PassM.update]
    rcases isProb with kind | kind <;> rw [kind] <;> rfl
  rw [scanned, PassM.scanProb, PassM.modifyGet_bind]

theorem obeys_permutes :
    Obeys setting home composite
      (Permutes composite composite.kind.continueStatus) := by
  intro fuel result opened body updated
  obtain ⟨weights, pool, pending, isKind⟩ :=
    exists_prob_of_fits isProb (opened.board.fits_stateFor home composite)
  rw [update_eq_scanProb isProb] at updated
  obtain ⟨replies, left, kept, tells, isKept, deals⟩ :=
    deals_of_drawLoop isProb wellFormed isScoped composed apart
      composite.kind.continueStatus_ne_error
      (isKind ▸ opened.holds_ensureState home composite) updated
  have ensured : Tells composite [] opened
      (opened.ensureState home composite).2 := .of_same rfl
  exact ⟨replies, ensured.after_silence tells, weights, pool, pending, left, kept,
    isKind, isKept, deals⟩

omit wellFormed isScoped composed apart in
/-- A child that was running is ticked first, before anything is drawn. -/
theorem resumes_without_draw {fuel index : Nat} {visit : PassM.Visit α}
    {opened body : Pass α} {result : Status}
    (isKind : (opened.board.stateFor home composite).kind =
      .prob weights pool (some index))
    (updated : PassM.update setting fuel visit home composite opened =
      some (result, body)) :
    ∃ ready status middle, ready.log = opened.log ∧
      ready.board.stream = opened.board.stream ∧
      (ready.board.stateFor home composite).kind = .prob weights pool none ∧
      PassM.tickChild visit home composite index ready =
        some (status, middle) := by
  rw [update_eq_scanProb isProb] at updated
  cases fuel with
  | zero => cases updated
  | succ fuel =>
      rw [PassM.drawLoop, PassM.modifyGet_bind] at updated
      rcases nextProbChild_eq home
          (isKind ▸ opened.holds_ensureState home composite) with
        ⟨_, absent, _⟩ | ⟨next, rest, ready, isNext, log, again, hasRest, _⟩
      · cases absent
      obtain ⟨rfl, rfl, stream⟩ := again index rfl
      rw [isNext] at updated
      dsimp only at updated
      rw [PassM.bind_apply] at updated
      obtain ⟨⟨status, middle⟩, ticked, _⟩ := Option.bind_eq_some_iff.mp updated
      exact ⟨ready, status, middle, log, stream,
        hasRest.kind_stateFor (fits_prob isProb) home, ticked⟩

end Update

end Pass

/-- What one update of a Prob composite does, after the replies to earlier
updates of its activation. -/
structure Permuted (children : List NodeHash) (goOn : Status)
    (earlier replies : Replies) (result : Status) : Prop
    extends Sequenced goOn replies result where
  listed : ∀ child ∈ replies.map Prod.fst, child ∈ children
  distinct : (replies.map Prod.fst).Nodup
  /-- It goes on with the child that was running. -/
  resumes : ∀ reply ∈ earlier.getLast?, reply.2 = .running ∧
    replies.head?.map Prod.fst = some reply.1
  /-- It ticks no other child again. -/
  repeats : ∀ child ∈ replies.map Prod.fst, child ∈ earlier.map Prod.fst →
    earlier.getLast? = some (child, .running) ∧
      replies.head?.map Prod.fst = some child
  once : Replies.Once (earlier ++ replies)
  concludes : result = goOn ↔
    ∀ child ∈ children, (child, goOn) ∈ earlier ++ replies

/-- The children that were passed and those to come are all of them.  Of those
to come at most one was ticked before. -/
structure Dealt (children : List NodeHash) (goOn : Status) (told : Replies)
    (toCome : List NodeHash) (waiting : Option NodeHash) : Prop where
  permutes : (Replies.passed goOn told ++ toCome).Perm children
  continued : ∀ reply ∈ told, reply.2 = goOn ∨ reply.2 = .running
  tried : ∀ child ∈ told.map Prod.fst,
    (child, goOn) ∈ told ∨ waiting = some child
  once : Replies.Once told

namespace Dealt

variable {children toCome rest : List NodeHash} {goOn : Status} {told : Replies}
  {waiting : Option NodeHash} {child : NodeHash}

theorem start : Dealt children goOn [] children none where
  permutes := .refl _
  continued := nofun
  tried := nofun
  once := Throughout.nil

theorem perm (dealt : Dealt children goOn told toCome waiting)
    (perm : toCome.Perm rest) : Dealt children goOn told rest waiting :=
  { dealt with permutes := (perm.symm.append_left _).trans dealt.permutes }

theorem continued_snoc (dealt : Dealt children goOn told toCome waiting)
    (child : NodeHash) {status : Status}
    (goesOn : status = goOn ∨ status = .running) :
    ∀ reply ∈ told ++ [(child, status)],
      reply.2 = goOn ∨ reply.2 = .running := by
  intro reply member
  rcases List.mem_append.mp member with member | member
  · exact dealt.continued reply member
  · rw [List.mem_singleton.mp member]
    exact goesOn

section Nodup

variable (dealt : Dealt children goOn told toCome waiting)
  (distinct : children.Nodup)
include dealt distinct

theorem not_passed (next : child ∈ toCome) : (child, goOn) ∉ told := by
  intro isPassed
  have all := dealt.permutes.nodup_iff.mpr distinct
  exact (List.disjoint_of_nodup_append all) (Replies.mem_passed.mpr isPassed) next

theorem once_snoc (next : child ∈ toCome) (status : Status) :
    Replies.Once (told ++ [(child, status)]) := by
  refine Throughout.snoc dealt.once fun former member same => ?_
  refine (dealt.continued former member).resolve_left fun goesOn => ?_
  refine dealt.not_passed distinct next ?_
  rw [← goesOn, ← show former.1 = child from same]
  exact member

end Nodup

theorem not_all_passed (dealt : Dealt children goOn told (child :: rest) waiting)
    (distinct : children.Nodup) {status : Status} (stops : status ≠ goOn) :
    ¬ ∀ other ∈ children, (other, goOn) ∈ told ++ [(child, status)] := by
  intro all
  have listed : child ∈ children := dealt.permutes.mem_iff.mp
    (List.mem_append_right _ List.mem_cons_self)
  rcases List.mem_append.mp (all child listed) with member | member
  · exact dealt.not_passed distinct List.mem_cons_self member
  · cases List.mem_singleton.mp member
    exact stops rfl

/-- The child that comes next is passed. -/
theorem pass (dealt : Dealt children goOn told (child :: rest) waiting)
    (distinct : children.Nodup) (isNext : ∀ other ∈ waiting, other = child) :
    Dealt children goOn (told ++ [(child, goOn)]) rest none where
  permutes := by
    rw [Replies.passed_append, Replies.passed_singleton, if_pos rfl,
      List.append_assoc]
    exact dealt.permutes
  continued := dealt.continued_snoc child (.inl rfl)
  tried other member := by
    rw [List.map_append, List.mem_append] at member
    refine .inl (List.mem_append.mpr ?_)
    rcases member with member | member
    · refine (dealt.tried other member).imp id fun waits => ?_
      rw [isNext other waits]
      exact List.mem_singleton_self _
    · rw [List.mem_singleton.mp member]
      exact .inr (List.mem_singleton_self _)
  once := dealt.once_snoc distinct List.mem_cons_self goOn

/-- The child that comes next is left to come. -/
theorem wait (dealt : Dealt children goOn told (child :: rest) waiting)
    (distinct : children.Nodup) (goOnStops : goOn ≠ .running)
    (isNext : ∀ other ∈ waiting, other = child) :
    Dealt children goOn (told ++ [(child, .running)]) (child :: rest)
      (some child) where
  permutes := by
    rw [Replies.passed_append, Replies.passed_singleton,
      if_neg (Ne.symm goOnStops), List.append_nil]
    exact dealt.permutes
  continued := dealt.continued_snoc child (.inr rfl)
  tried other member := by
    rw [List.map_append, List.mem_append] at member
    rcases member with member | member
    · refine (dealt.tried other member).imp (List.mem_append_left _) fun waits => ?_
      rw [isNext other waits]
    · rw [List.mem_singleton.mp member]
      exact .inr rfl
  once := dealt.once_snoc distinct List.mem_cons_self .running

theorem all_passed (dealt : Dealt children goOn told [] waiting) :
    ∀ child ∈ children, (child, goOn) ∈ told := by
  intro child member
  have all := dealt.permutes
  rw [List.append_nil] at all
  exact Replies.mem_passed.mp (all.mem_iff.mpr member)

end Dealt

/-- The children at some positions. -/
def childrenAt (children : List NodeHash) (positions : List Nat) :
    List NodeHash :=
  positions.filterMap (children[·]?)

theorem childrenAt_range (children : List NodeHash) (count : Nat) :
    childrenAt children (List.range count) = children.take count := by
  induction count with
  | zero => rfl
  | succ count induction =>
      rw [childrenAt] at induction
      rw [List.take_add_one, List.range_succ, childrenAt, List.filterMap_append,
        induction]
      cases listed : children[count]? <;> simp [listed]

/-- A Prob composite keeps the children that are to come: those in its pool, and
before them the one that was running, from which the latest reply is. -/
structure Shares (children : List NodeHash) (goOn : Status) (told : Replies)
    (pool : List Nat) (pending : Option Nat) : Prop where
  inRange : ∀ index ∈ pending.toList ++ pool, index < children.length
  dealt : Dealt children goOn told (childrenAt children (pending.toList ++ pool))
    (pending.bind (children[·]?))
  latest : told.getLast? = (pending.bind (children[·]?)).map (·, .running)

namespace Pass.Takes

variable {children : List NodeHash} {pool rest : List Nat}
  {pending : Option Nat} {index : Nat} {child : NodeHash}

theorem childrenAt (takes : Takes pool pending index rest)
    (listed : children[index]? = some child) :
    (childrenAt children (pending.toList ++ pool)).Perm
      (child :: childrenAt children rest) := by
  have perm := takes.perm.filterMap (children[·]?)
  rwa [List.filterMap_cons_some listed] at perm

theorem eq_of_pending (takes : Takes pool pending index rest)
    (listed : children[index]? = some child) :
    ∀ other ∈ pending.bind (children[·]?), other = child := by
  intro other waits
  cases takes with
  | again => exact Option.some.inj (waits.symm.trans listed)
  | drawn => cases waits

theorem inRange (takes : Takes pool pending index rest)
    (inRange : ∀ index ∈ pending.toList ++ pool, index < children.length) :
    index < children.length ∧ ∀ index ∈ rest, index < children.length :=
  ⟨inRange index (takes.perm.mem_iff.mpr List.mem_cons_self),
    fun other member =>
      inRange other (takes.perm.mem_iff.mpr (List.mem_cons_of_mem _ member))⟩

end Pass.Takes

namespace Pass.Deals

variable {composite : Node} {goOn result : Status} {pool left : List Nat}
  {pending kept : Option Nat} {replies told : Replies}

section InRange

variable
  (deals : Deals composite goOn pool pending replies result left kept)
  (inRange : ∀ index ∈ pending.toList ++ pool,
    index < composite.children.length)
include deals inRange

theorem sequenced : Sequenced goOn replies result := by
  induction deals with
  | spent => exact .nil
  | waits => exact .single _ _
  | stops => exact .single _ _
  | lacks takes missing =>
      rw [List.getElem?_eq_getElem (takes.inRange inRange).1] at missing
      cases missing
  | goesOn takes _ _ induction => exact (induction (takes.inRange inRange).2).cons _

omit inRange in
theorem head {child : NodeHash}
    (waits : pending.bind (composite.children[·]?) = some child) :
    replies.head?.map Prod.fst = some child := by
  cases deals with
  | spent => cases waits
  | waits takes listed => rw [takes.eq_of_pending listed _ waits]; rfl
  | stops takes listed => rw [takes.eq_of_pending listed _ waits]; rfl
  | goesOn takes listed => rw [takes.eq_of_pending listed _ waits]; rfl
  | lacks takes missing =>
      cases takes with
      | again => cases missing.symm.trans waits
      | drawn => cases waits

omit inRange in
theorem subperm : (replies.map Prod.fst).Subperm
    (childrenAt composite.children (pending.toList ++ pool)) := by
  induction deals with
  | spent => exact .refl _
  | waits takes listed =>
      rw [(takes.childrenAt listed).subperm_left]
      exact (List.subperm_cons _).mpr List.nil_subperm
  | stops takes listed =>
      rw [(takes.childrenAt listed).subperm_left]
      exact (List.subperm_cons _).mpr List.nil_subperm
  | lacks => exact List.nil_subperm
  | goesOn takes listed _ induction =>
      rw [(takes.childrenAt listed).subperm_left]
      exact (List.subperm_cons _).mpr induction

/-- Where a scan leads: if it gives the result to go on, all children have been
passed, and else one has not. -/
theorem dealt (goOnStops : goOn ≠ .running)
    (distinct : composite.children.Nodup)
    (dealt : Dealt composite.children goOn told
      (childrenAt composite.children (pending.toList ++ pool))
      (pending.bind (composite.children[·]?))) :
    Replies.Once (told ++ replies) ∧
      (result = goOn ↔
        ∀ child ∈ composite.children, (child, goOn) ∈ told ++ replies) ∧
      (result = .running →
        Shares composite.children goOn (told ++ replies) left kept) := by
  induction deals generalizing told with
  | spent =>
      rw [List.append_nil]
      exact ⟨dealt.once, ⟨fun _ => dealt.all_passed, fun _ => rfl⟩,
        fun running => absurd running goOnStops⟩
  | @waits _ rest _ index child takes listed =>
      have next := dealt.perm (takes.childrenAt listed)
      have isNext := takes.eq_of_pending listed
      refine ⟨next.once_snoc distinct List.mem_cons_self _,
        iff_of_false (Ne.symm goOnStops)
          (next.not_all_passed distinct (Ne.symm goOnStops)), fun _ => ?_⟩
      have positions : childrenAt composite.children
          ((some index).toList ++ rest) =
          child :: childrenAt composite.children rest :=
        List.filterMap_cons_some listed
      have waits : (some index).bind (composite.children[·]?) = some child :=
        listed
      refine ⟨fun other member => ?_, ?_, ?_⟩
      · rcases List.mem_cons.mp member with rfl | member
        · exact (takes.inRange inRange).1
        · exact (takes.inRange inRange).2 other member
      · rw [positions, waits]
        exact next.wait distinct goOnStops isNext
      · rw [waits, List.getLast?_concat]
        rfl
  | stops takes listed running stops =>
      have next := dealt.perm (takes.childrenAt listed)
      exact ⟨next.once_snoc distinct List.mem_cons_self _,
        iff_of_false stops (next.not_all_passed distinct stops),
        fun runs => absurd runs running⟩
  | lacks takes missing =>
      rw [List.getElem?_eq_getElem (takes.inRange inRange).1] at missing
      cases missing
  | goesOn takes listed _ induction =>
      have next := dealt.perm (takes.childrenAt listed)
      have further := induction (takes.inRange inRange).2
        (next.pass distinct (takes.eq_of_pending listed))
      rwa [List.append_assoc] at further

theorem permuted (goOnStops : goOn ≠ .running)
    (distinct : composite.children.Nodup)
    (shares : Shares composite.children goOn told pool pending) :
    Permuted composite.children goOn told replies result := by
  obtain ⟨once, concludes, _⟩ :=
    deals.dealt inRange goOnStops distinct shares.dealt
  obtain ⟨ticked, perm, among⟩ := deals.subperm
  have toCome : (childrenAt composite.children (pending.toList ++ pool)).Nodup :=
    (List.nodup_append.mp (shares.dealt.permutes.nodup_iff.mpr distinct)).2.1
  have member_toCome : ∀ child ∈ replies.map Prod.fst,
      child ∈ childrenAt composite.children (pending.toList ++ pool) :=
    fun child member => among.subset (perm.mem_iff.mpr member)
  refine
    { toSequenced := deals.sequenced inRange
      listed := fun child member => shares.dealt.permutes.mem_iff.mp
        (List.mem_append_right _ (member_toCome child member))
      distinct := perm.nodup_iff.mp (among.nodup toCome)
      resumes := fun reply latest => ?_
      repeats := fun child member before => ?_
      once
      concludes }
  · rw [shares.latest] at latest
    obtain ⟨child, waits, rfl⟩ := Option.map_eq_some_iff.mp latest
    exact ⟨rfl, deals.head waits⟩
  · have waits := (shares.dealt.tried child before).resolve_left
      (shares.dealt.not_passed distinct (member_toCome child member))
    exact ⟨by rw [shares.latest, waits]; rfl, deals.head waits⟩

end InRange

end Pass.Deals

/-- A Prob composite keeps the children that are to come. -/
def KeepsPool (children : List NodeHash) (goOn : Status) : Waits :=
  fun told kind => ∃ weights pool pending, kind = .prob weights pool pending ∧
    Shares children goOn told (pool.map Prod.fst) pending

section Waiting

variable {home : Tree} {composite : Node} {goOn : Status}
  (isProb : composite.kind = .probSequence ∨ composite.kind = .probSelector)
include isProb

/-- An activation begins with all children in the pool. -/
theorem keepsPool_begun {kind : KindState}
    (fits : kind.fits composite.kind = true) :
    KeepsPool composite.children goOn []
      (begunKind home composite false kind) := by
  obtain ⟨weights, pool, pending, rfl⟩ := exists_prob_of_fits isProb fits
  have synced : NodeState.syncKind (.prob weights pool pending) composite.kind =
      .prob weights pool pending := by
    rcases isProb with kind | kind <;> rw [kind] <;> rfl
  refine ⟨weights, fullPool home weights composite.children, none, ?_, ?_⟩
  · rw [begunKind, synced]
    rfl
  · rw [map_fst_fullPool]
    refine ⟨fun index member => List.mem_range.mp member, ?_, rfl⟩
    change Dealt _ _ _ (childrenAt _ (List.range _)) none
    rw [childrenAt_range, List.take_length]
    exact .start

theorem proceeds_permutes (goOnStops : goOn ≠ .running)
    (distinct : composite.children.Nodup) :
    Proceeds home composite (Permutes composite goOn)
      (Permuted composite.children goOn) (KeepsPool composite.children goOn) where
  update := by
    rintro told replies result _ _ ⟨_, pool, pending, rfl, shares⟩
      ⟨_, _, _, left, kept, same, rfl, deals⟩
    cases same
    refine ⟨deals.permuted shares.inRange goOnStops distinct shares,
      fun running => ⟨_, left, kept, rfl, ?_⟩⟩
    exact (deals.dealt shares.inRange goOnStops distinct shares.dealt).2.2 running
  anew fits := keepsPool_begun isProb (fits_closedKind fits)

end Waiting

end BehaviorTree
