import BehaviorTree.Proofs.Pass.Waiting

/-!
# Scans of Mem composites

A Mem composite keeps its place among the children: a child that is running is
where its next update goes on, and the end of an activation takes it back to the
first child.  So the updates of one activation are parts of a single scan, which
passes the children one after the other.
-/

namespace BehaviorTree

open BehaviorTree.Pass

/-- What a scan does from a position on, and the position that is kept if a child
is running. -/
inductive Pass.Advances (composite : Node) (goOn : Status) :
    Nat → Replies → Status → Nat → Prop where
  | past {position kept : Nat} : composite.children.length ≤ position →
      Advances composite goOn position [] goOn kept
  | waits {position : Nat} {child : NodeHash} :
      composite.children[position]? = some child →
      Advances composite goOn position [(child, .running)] .running position
  | stops {position kept : Nat} {child : NodeHash} {status : Status} :
      composite.children[position]? = some child → status ≠ .running →
      status ≠ goOn →
      Advances composite goOn position [(child, status)] status kept
  | goesOn {position kept : Nat} {child : NodeHash} {replies : Replies}
      {result : Status} :
      composite.children[position]? = some child →
      Advances composite goOn (position + 1) replies result kept →
      Advances composite goOn position ((child, goOn) :: replies) result kept

/-- What one update of a Mem composite does. -/
def Pass.Resumes (composite : Node) (goOn : Status) : Conduct :=
  fun kind replies result changed => ∃ position kept,
    kind = .mem position ∧ changed = .mem kept ∧
      Advances composite goOn position replies result kept

namespace Pass

variable {α : Type} {setting : Setting α} {home : Tree} {composite : Node}
  {before after : Pass α} {status goOn : Status}

section Update

variable (wellFormed : setting.forest.WellFormed)
  (isScoped : setting.forest.Scoped)
  (composed : setting.forest.Located home composite)
  (apart : ∀ other, setting.forest.Leads (home.refTo composite) other →
    other.hash ≠ composite.hash)
  (isMem : composite.kind.IsMem)
include wellFormed isScoped composed apart isMem

theorem advances_of_scanMem {fuel position count : Nat}
    (isMemKind : ∃ kept, (before.board.stateFor home composite).kind = .mem kept)
    (enough : count = composite.children.length - position)
    (ended : PassM.scanMem (PassM.tickChild (PassM.tick setting fuel) home
      composite) (PassM.recordMem home composite) goOn
      (List.range' position count) before = some (status, after)) :
    ∃ replies kept, Tells composite replies before after ∧
      (after.board.stateFor home composite).kind = .mem kept ∧
      Advances composite goOn position replies status kept := by
  induction count generalizing position before with
  | zero =>
      cases ended
      obtain ⟨kept, isKept⟩ := isMemKind
      exact ⟨[], kept, .of_same rfl, isKept, .past (by omega)⟩
  | succ count induction =>
      rw [List.range'_succ, PassM.scanMem, PassM.bind_apply] at ended
      obtain ⟨⟨found, middle⟩, ticked, ended⟩ :=
        Option.bind_eq_some_iff.mp ended
      dsimp only at ended
      have plain : composite.kind.transitionTarget = none := by
        rcases isMem with kind | kind <;> rw [kind] <;> rfl
      have consults := consults_of_tickChild wellFormed isScoped composed apart
        plain ticked
      have listed : composite.children[position]? =
          some composite.children[position] := by
        exact List.getElem?_eq_getElem (by omega)
      have tells := consults.tells
      rw [Node.replyAt_eq listed] at tells
      rw [← consults.stateFor home] at isMemKind
      by_cases running : found = .running
      · subst running
        rw [if_pos rfl, PassM.bind_apply] at ended
        obtain ⟨⟨_, last⟩, recorded, ended⟩ :=
          Option.bind_eq_some_iff.mp ended
        cases ended
        have aside := PassM.aside_of_recorded
          (PassM.recordMem_eq home composite position middle) recorded
        exact ⟨_, position, tells.then_silence (.of_aside aside),
          resumes_of_recordMem isMem recorded, .waits listed⟩
      rw [if_neg running] at ended
      by_cases goesOn : found = goOn
      · subst goesOn
        rw [if_pos rfl] at ended
        obtain ⟨replies, kept, laterTells, isKept, advances⟩ :=
          induction isMemKind (by omega) ended
        exact ⟨_, kept, tells.trans laterTells, isKept, .goesOn listed advances⟩
      · rw [if_neg goesOn] at ended
        cases ended
        obtain ⟨kept, isKept⟩ := isMemKind
        exact ⟨_, kept, tells, isKept, .stops listed running goesOn⟩

theorem obeys_resumes :
    Obeys setting home composite
      (Resumes composite composite.kind.continueStatus) := by
  intro fuel result opened body updated
  obtain ⟨position, isKind⟩ := KindState.exists_mem_of_fits isMem
    (opened.board.fits_stateFor home composite)
  have resumed : PassM.resumeMem (PassM.tick setting fuel) home composite
      composite.kind.continueStatus opened = some (result, body) := by
    rw [PassM.update] at updated
    rcases isMem with kind | kind
    · rw [kind] at updated ⊢
      exact updated
    · rw [kind] at updated ⊢
      exact updated
  rw [resumeMem_eq isKind] at resumed
  rw [isKind]
  rw [← opened.stateFor_ensureState home composite] at isKind
  obtain ⟨replies, kept, tells, isKept, advances⟩ := advances_of_scanMem
    wellFormed isScoped composed apart isMem ⟨position, isKind⟩ rfl resumed
  have ensured : Tells composite [] opened
      (opened.ensureState home composite).2 := .of_same rfl
  exact ⟨replies, ensured.after_silence tells, position, kept, rfl, isKept,
    advances⟩

end Update

end Pass

/-- Each reply is that of the child after those that were passed. -/
def InOrder (children : List NodeHash) (goOn : Status) : Replies → Prop :=
  Throughout fun done reply =>
    children[(Replies.passed goOn done).length]? = some reply.1

theorem InOrder.passed_eq {children : List NodeHash} {goOn : Status}
    {replies : Replies} (inOrder : InOrder children goOn replies) :
    Replies.passed goOn replies =
      children.take (Replies.passed goOn replies).length := by
  induction replies using List.reverseRecOn with
  | nil => rfl
  | append_singleton replies reply induction =>
      have before := induction (Throughout.of_append inOrder)
      have next := inOrder replies reply [] rfl
      rw [Replies.passed_append]
      by_cases goesOn : reply.2 = goOn
      · rw [Replies.passed_singleton, if_pos goesOn, List.length_append,
          List.length_singleton, List.take_add_one, next, ← before]
        rfl
      · rw [Replies.passed_singleton, if_neg goesOn, List.append_nil]
        exact before

/-- What one update of a Mem composite does, after the replies to earlier
updates of its activation. -/
structure Scanned (children : List NodeHash) (goOn : Status)
    (earlier replies : Replies) (result : Status) : Prop
    extends Sequenced goOn replies result where
  inOrder : InOrder children goOn (earlier ++ replies)
  distinct : (replies.map Prod.fst).Nodup
  /-- The successor of a child that is passed comes at once. -/
  follows : ∀ done child rest, replies = done ++ (child, goOn) :: rest →
    rest.head?.map Prod.fst =
      children[(Replies.passed goOn (earlier ++ done)).length + 1]?
  /-- It goes on with the child that was running. -/
  resumes : ∀ reply ∈ earlier.getLast?, reply.2 = .running ∧
    replies.head?.map Prod.fst = some reply.1
  /-- It ticks no other child again. -/
  repeats : ∀ child ∈ replies.map Prod.fst, child ∈ earlier.map Prod.fst →
    earlier.getLast? = some (child, .running) ∧
      replies.head?.map Prod.fst = some child
  /-- No child is ticked again that was passed. -/
  once : Throughout (fun done reply => (reply.1, goOn) ∉ done)
    (earlier ++ replies)
  concludes : result = goOn ↔
    ∀ child ∈ children, (child, goOn) ∈ earlier ++ replies

/-- An activation of a Mem composite goes on at a position. -/
structure ScansTo (children : List NodeHash) (goOn : Status) (told : Replies)
    (position : Nat) : Prop where
  inOrder : InOrder children goOn told
  passes : (Replies.passed goOn told).length = position

/-- The latest reply, if there is one, is that of a child that is running, with
which the activation goes on. -/
structure WaitsAt (children : List NodeHash) (goOn : Status) (told : Replies)
    (position : Nat) : Prop extends ScansTo children goOn told position where
  latest : ∀ reply ∈ told.getLast?,
    reply.2 = .running ∧ children[position]? = some reply.1

namespace ScansTo

variable {children : List NodeHash} {goOn : Status} {told : Replies}
  {position : Nat} {child : NodeHash}

theorem nil : ScansTo children goOn [] 0 := ⟨Throughout.nil, rfl⟩

theorem passed_eq (reaches : ScansTo children goOn told position) :
    Replies.passed goOn told = children.take position := by
  rw [reaches.inOrder.passed_eq, reaches.passes]

theorem inOrder_snoc (reaches : ScansTo children goOn told position)
    (listed : children[position]? = some child) (status : Status) :
    InOrder children goOn (told ++ [(child, status)]) := by
  refine Throughout.snoc reaches.inOrder ?_
  rw [reaches.passes]
  exact listed

theorem next (reaches : ScansTo children goOn told position)
    (listed : children[position]? = some child) :
    ScansTo children goOn (told ++ [(child, goOn)]) (position + 1) where
  inOrder := reaches.inOrder_snoc listed goOn
  passes := by
    rw [Replies.passed_append, List.length_append, reaches.passes,
      Replies.passed_singleton, if_pos rfl]
    rfl

theorem stay (reaches : ScansTo children goOn told position)
    (listed : children[position]? = some child) {status : Status}
    (stops : status ≠ goOn) :
    ScansTo children goOn (told ++ [(child, status)]) position where
  inOrder := reaches.inOrder_snoc listed status
  passes := by
    rw [Replies.passed_append, Replies.passed_singleton, if_neg stops,
      List.append_nil]
    exact reaches.passes

theorem not_passed (reaches : ScansTo children goOn told position)
    (distinct : children.Nodup) (listed : children[position]? = some child) :
    (child, goOn) ∉ told := by
  intro isPassed
  have member := Replies.mem_passed.mpr isPassed
  rw [reaches.passed_eq] at member
  exact List.disjoint_take_drop distinct le_rfl member
    (List.mem_of_getElem? (by rw [List.getElem?_drop, Nat.add_zero, listed]))

theorem all_passed (reaches : ScansTo children goOn told position)
    (past : children.length ≤ position) :
    ∀ child ∈ children, (child, goOn) ∈ told := by
  intro child member
  rw [← Replies.mem_passed, reaches.passed_eq, List.take_of_length_le past]
  exact member

/-- No child from the position on was ticked, but the one at the position. -/
theorem eq_next (reaches : ScansTo children goOn told position)
    (distinct : children.Nodup) (visited : child ∈ told.map Prod.fst)
    (ahead : child ∈ children.drop position) :
    children[position]? = some child := by
  obtain ⟨reply, member, rfl⟩ := List.mem_map.mp visited
  obtain ⟨done, rest, split⟩ := List.append_of_mem member
  have listed := reaches.inOrder done reply rest split
  have before : (Replies.passed goOn done).length ≤ position := by
    rw [← reaches.passes, split, Replies.passed_append, List.length_append]
    exact Nat.le_add_right _ _
  rcases Nat.lt_or_eq_of_le before with earlier | same
  · have inTake : reply.1 ∈ children.take position := by
      refine List.mem_of_getElem? (i := (Replies.passed goOn done).length) ?_
      rw [List.getElem?_take, if_pos earlier, listed]
    exact absurd ahead (List.disjoint_take_drop distinct le_rfl inTake)
  · rw [← same, listed]

end ScansTo

theorem InOrder.once {children : List NodeHash} {goOn : Status}
    {replies : Replies} (inOrder : InOrder children goOn replies)
    (distinct : children.Nodup) :
    Throughout (fun done reply => (reply.1, goOn) ∉ done) replies := by
  intro done reply rest split
  have reaches : ScansTo children goOn done _ :=
    ⟨Throughout.of_append (split ▸ inOrder), rfl⟩
  exact reaches.not_passed distinct (inOrder done reply rest split)

namespace Pass.Advances

variable {composite : Node} {goOn result : Status} {position kept : Nat}
  {replies told : Replies}

theorem sequenced
    (advances : Advances composite goOn position replies result kept) :
    Sequenced goOn replies result := by
  induction advances with
  | past => exact .nil
  | waits => exact .single _ _
  | stops => exact .single _ _
  | goesOn _ _ induction => exact induction.cons _

theorem listed
    (advances : Advances composite goOn position replies result kept) :
    replies.map Prod.fst <+: composite.children.drop position := by
  have next : ∀ {position child}, composite.children[position]? = some child →
      composite.children.drop position =
        child :: composite.children.drop (position + 1) := by
    intro position child listed
    obtain ⟨within, rfl⟩ := List.getElem?_eq_some_iff.mp listed
    exact List.drop_eq_getElem_cons within
  induction advances with
  | past => exact List.nil_prefix
  | waits listed =>
      rw [next listed]
      exact List.prefix_append [_] _
  | stops listed =>
      rw [next listed]
      exact List.prefix_append [_] _
  | goesOn listed _ induction =>
      rw [next listed]
      exact List.cons_prefix_cons.mpr ⟨rfl, induction⟩

theorem head
    (advances : Advances composite goOn position replies result kept) :
    replies.head?.map Prod.fst = composite.children[position]? := by
  cases advances with
  | past beyond => rw [List.getElem?_eq_none beyond]; rfl
  | waits listed => rw [listed]; rfl
  | stops listed => rw [listed]; rfl
  | goesOn listed => rw [listed]; rfl

/-- The child that is next comes after one that is passed. -/
theorem follows
    (advances : Advances composite goOn position replies result kept)
    (goOnStops : goOn ≠ .running)
    (reaches : ScansTo composite.children goOn told position)
    {done rest : Replies} {child : NodeHash}
    (split : replies = done ++ (child, goOn) :: rest) :
    rest.head?.map Prod.fst = composite.children[
      (Replies.passed goOn (told ++ done)).length + 1]? := by
  have passed : (child, goOn) ∈ replies := by
    rw [split]
    exact List.mem_append_right _ List.mem_cons_self
  induction advances generalizing told done with
  | past => cases passed
  | waits =>
      have same := List.mem_singleton.mp passed
      exact absurd (congrArg Prod.snd same) goOnStops
  | stops _ _ differs =>
      have same := List.mem_singleton.mp passed
      exact absurd (congrArg Prod.snd same).symm differs
  | goesOn listed later induction =>
      cases done with
      | nil =>
          obtain ⟨-, rfl⟩ := List.cons.inj split
          rw [List.append_nil, reaches.passes]
          exact later.head
      | cons reply done =>
          obtain ⟨rfl, ends⟩ := List.cons.inj split
          have further := induction (reaches.next listed) ends
            (by rw [ends]; exact List.mem_append_right _ List.mem_cons_self)
          rwa [List.append_assoc] at further

/-- Where a scan leads: past all children if it gives the result to go on, and
else to a child that is next. -/
theorem scansTo (goOnStops : goOn ≠ .running)
    (advances : Advances composite goOn position replies result kept)
    (reaches : ScansTo composite.children goOn told position) :
    ∃ last, ScansTo composite.children goOn (told ++ replies) last ∧
      (result = goOn → composite.children.length ≤ last) ∧
      (result ≠ goOn → ∃ child, composite.children[last]? = some child) ∧
      (result = .running → last = kept ∧ ∀ reply ∈ (told ++ replies).getLast?,
        reply.2 = .running ∧ composite.children[last]? = some reply.1) := by
  induction advances generalizing told with
  | @past position _ beyond =>
      refine ⟨position, by rwa [List.append_nil], fun _ => beyond,
        fun differs => absurd rfl differs,
        fun running => absurd running goOnStops⟩
  | @waits position child listed =>
      refine ⟨position, reaches.stay listed (Ne.symm goOnStops),
        fun same => absurd same.symm goOnStops, fun _ => ⟨child, listed⟩,
        fun _ => ⟨rfl, fun reply last => ?_⟩⟩
      rw [List.getLast?_concat] at last
      cases last
      exact ⟨rfl, listed⟩
  | @stops position _ child _ listed notRunning differs =>
      exact ⟨position, reaches.stay listed differs,
        fun same => absurd same differs, fun _ => ⟨child, listed⟩,
        fun running => absurd running notRunning⟩
  | @goesOn _ _ child replies _ listed _ induction =>
      have further := induction (reaches.next listed)
      rwa [List.append_assoc] at further

theorem waitsAt (goOnStops : goOn ≠ .running)
    (advances : Advances composite goOn position replies .running kept)
    (reaches : ScansTo composite.children goOn told position) :
    WaitsAt composite.children goOn (told ++ replies) kept := by
  obtain ⟨_, scansTo, _, _, waits⟩ := advances.scansTo goOnStops reaches
  obtain ⟨rfl, latest⟩ := waits rfl
  exact ⟨scansTo, latest⟩

theorem scanned (goOnStops : goOn ≠ .running)
    (distinct : composite.children.Nodup)
    (advances : Advances composite goOn position replies result kept)
    (waits : WaitsAt composite.children goOn told position) :
    Scanned composite.children goOn told replies result := by
  obtain ⟨last, scansTo, concludes, stops, _⟩ :=
    advances.scansTo goOnStops waits.toScansTo
  have resumes : ∀ reply ∈ told.getLast?, reply.2 = .running ∧
      replies.head?.map Prod.fst = some reply.1 := fun reply latest =>
    ⟨(waits.latest reply latest).1,
      advances.head.trans (waits.latest reply latest).2⟩
  have ahead := advances.listed
  refine
    { toSequenced := advances.sequenced
      inOrder := scansTo.inOrder
      distinct := (ahead.sublist.trans (List.drop_sublist _ _)).nodup distinct
      follows := fun done child rest split =>
        advances.follows goOnStops waits.toScansTo split
      resumes
      repeats := ?_
      once := scansTo.inOrder.once distinct
      concludes := ⟨fun same => scansTo.all_passed (concludes same), ?_⟩ }
  · intro child member before
    have next := waits.eq_next distinct before
      (ahead.sublist.subset member)
    have some_told : told ≠ [] := by
      rintro rfl
      cases before
    obtain ⟨reply, latest⟩ : ∃ reply, told.getLast? = some reply :=
      ⟨_, List.getLast?_eq_some_getLast some_told⟩
    obtain ⟨running, isNext⟩ := waits.latest reply latest
    rw [next] at isNext
    cases Option.some.inj isNext
    exact ⟨by rw [latest, ← running], advances.head.trans next⟩
  · intro all
    by_contra differs
    obtain ⟨child, listed⟩ := stops differs
    exact scansTo.not_passed distinct listed
      (all child (List.mem_of_getElem? listed))

end Pass.Advances

/-- A Mem composite keeps the position of the child that comes next. -/
def KeepsPlace (children : List NodeHash) (goOn : Status) : Waits :=
  fun told kind => ∃ position, kind = .mem position ∧
    WaitsAt children goOn told position

section Waiting

variable {home : Tree} {composite : Node} {goOn : Status}

theorem begunKind_mem (running : Bool) (position : Nat) :
    begunKind home composite running (.mem position) = .mem position := by
  have synced : NodeState.syncKind (.mem position) composite.kind =
      .mem position := by
    unfold NodeState.syncKind
    split <;> trivial
  rw [begunKind, synced]
  exact ite_self _

theorem keepsPlace_begun (children : List NodeHash) :
    KeepsPlace children goOn [] (begunKind home composite false (.mem 0)) :=
  ⟨0, begunKind_mem _ _, { ScansTo.nil with latest := nofun }⟩

theorem proceeds_resumes (isMem : composite.kind.IsMem)
    (goOnStops : goOn ≠ .running) (distinct : composite.children.Nodup) :
    Proceeds home composite (Resumes composite goOn)
      (Scanned composite.children goOn) (KeepsPlace composite.children goOn) where
  update := by
    rintro told replies result _ _ ⟨position, rfl, waitsAt⟩
      ⟨_, kept, same, rfl, advances⟩
    cases same
    refine ⟨advances.scanned goOnStops distinct waitsAt, ?_⟩
    rintro rfl
    exact ⟨kept, rfl, advances.waitsAt goOnStops waitsAt.toScansTo⟩
  anew := by
    intro kind fits
    obtain ⟨position, rfl⟩ := KindState.exists_mem_of_fits isMem fits
    exact keepsPlace_begun _

end Waiting

/-- The kind that scans alike, from the first child on each time. -/
def NodeKind.plain : NodeKind → NodeKind
  | memSequence => sequence
  | memSelector => selector
  | kind => kind

section Plain

variable {α : Type} {setting : Setting α} {home : Tree} {composite : Node}
  {before after : Pass α} {status goOn : Status}

/-- A scan that comes to a result without a child that is running has kept no
place. -/
theorem scanMem_eq_scan {tickAt otherAt : Nat → PassM α Status}
    {record : Nat → PassM α Unit} {indices : List Nat}
    (same : ∀ index ∈ indices, tickAt index = otherAt index)
    (goOnStops : goOn ≠ .running) (settled : status ≠ .running) :
    PassM.scanMem tickAt record goOn indices before = some (status, after) ↔
      PassM.scan otherAt goOn indices before = some (status, after) := by
  induction indices generalizing before with
  | nil => exact Iff.rfl
  | cons index rest induction =>
      rw [PassM.scanMem, PassM.scan, PassM.bind_apply, PassM.bind_apply,
        same index List.mem_cons_self]
      cases otherAt index before with
      | none => exact Iff.rfl
      | some outcome =>
          obtain ⟨found, middle⟩ := outcome
          simp only [Option.bind_some]
          by_cases running : found = .running
          · subst running
            rw [if_pos rfl, if_neg (Ne.symm goOnStops), PassM.bind_apply]
            refine ⟨fun ended => ?_, fun ended => ?_⟩
            · obtain ⟨_, _, ended⟩ := Option.bind_eq_some_iff.mp ended
              cases ended
              exact absurd rfl settled
            · cases ended
              exact absurd rfl settled
          rw [if_neg running]
          by_cases goesOn : found = goOn
          · rw [if_pos goesOn, if_pos goesOn]
            exact induction fun index member =>
              same index (List.mem_cons_of_mem _ member)
          · rw [if_neg goesOn, if_neg goesOn]

theorem ensureState_eq (fits : before.board.fits composite = true) :
    (before.ensureState home composite).2 = before := by
  obtain ⟨state, present, fits⟩ := Blackboard.fits_iff.mp fits
  have same : before.board.states.insert composite.hash state =
      before.board.states := by
    refine Std.ExtTreeMap.ext_getElem? fun hash => ?_
    rw [Std.ExtTreeMap.getElem?_insert]
    split
    · next isHash =>
        rw [← Std.LawfulEqCmp.eq_of_compare isHash, present]
    · rfl
  rw [Pass.ensureState, Pass.updateState, Blackboard.updateState,
    Blackboard.stateFor_eq home present fits, Blackboard.setState, id, same]

/-- An update of a Mem composite that begins with the first child, and in which
no child is running, is that of the plain composite. -/
theorem update_eq_plain {fuel : Nat} {visit : PassM.Visit α}
    (wellFormed : setting.forest.WellFormed)
    (composed : setting.forest.Located home composite)
    (isMem : composite.kind.IsMem)
    (fits : before.board.fits composite = true)
    (first : (before.board.stateFor home composite).kind = .mem 0)
    (settled : status ≠ .running) :
    PassM.update setting fuel visit home composite before =
        some (status, after) ↔
      PassM.update setting fuel visit home
          { composite with kind := composite.kind.plain } before =
        some (status, after) := by
  have resumed : PassM.update setting fuel visit home composite before =
      PassM.resumeMem visit home composite composite.kind.continueStatus
        before := by
    rw [PassM.update]
    rcases isMem with kind | kind <;> rw [kind] <;> rfl
  have scanned : PassM.update setting fuel visit home
      { composite with kind := composite.kind.plain } before =
      PassM.scan (PassM.tickChild visit home
        { composite with kind := composite.kind.plain })
        composite.kind.continueStatus (List.range composite.children.length)
        before := by
    rw [PassM.update]
    rcases isMem with kind | kind <;> rw [kind] <;> rfl
  rw [resumed, scanned, resumeMem_eq first, ensureState_eq fits,
    Nat.sub_zero, ← List.range_eq_range']
  refine scanMem_eq_scan (fun index member => ?_)
    composite.kind.continueStatus_ne_running settled
  obtain ⟨child, isChild⟩ :=
    wellFormed.exists_childAt composed (List.mem_range.mp member)
  have isChildToo : home.childAt
      { composite with kind := composite.kind.plain } index = some child :=
    isChild
  rw [PassM.tickChild, PassM.tickChild, isChild, isChildToo]

end Plain

end BehaviorTree
