import BehaviorTree.Proofs.Pass.Recalling
import BehaviorTree.Proofs.Pass.Resuming

/-!
# Successes of a MemSequence

A MemSequence goes on at a position, and all children before it have succeeded
since it was opened.  The scan keeps this up: every child that it passes has
succeeded, and the position that is kept is that of the child that is running.
Other nodes cannot interfere, because a child is ticked by its parent alone; only
an update of the composite within another one, through Transitions, can.
-/

namespace BehaviorTree

open BehaviorTree.Pass

/-- The position that a state holds for a Mem composite. -/
def KindState.position : KindState → Nat
  | mem index => index
  | _ => 0

namespace Blackboard

variable {board other : Blackboard} {hash : NodeHash}

/-- The number of children that an update of a running Mem composite passes
over. -/
def resumePoint (board : Blackboard) (hash : NodeHash) : Nat :=
  match board.states[hash]? with
  | some state => if state.running then state.kind.position else 0
  | none => 0

theorem resumePoint_eq {state : NodeState}
    (present : board.states[hash]? = some state) :
    board.resumePoint hash =
      if state.running then state.kind.position else 0 := by
  rw [resumePoint, present]

theorem resumePoint_congr (same : other.states[hash]? = board.states[hash]?) :
    other.resumePoint hash = board.resumePoint hash := by
  rw [resumePoint, resumePoint, same]

theorem resumePoint_of_quiet (quiet : board.isRunning hash = false) :
    board.resumePoint hash = 0 := by
  cases present : board.states[hash]? with
  | none => rw [resumePoint, present]
  | some state =>
      rw [isRunning_eq present] at quiet
      rw [resumePoint_eq present, quiet, if_neg Bool.false_ne_true]

/-- A Mem composite that is at rest unless it is running goes on at its resume
point. -/
theorem Rests.position_eq {tree : Tree} {node : Node} {index : Nat}
    (rests : board.Rests node.hash)
    (resumes : (board.stateFor tree node).kind = .mem index) :
    index = board.resumePoint node.hash := by
  have isMem := board.fits_stateFor tree node
  rw [resumes] at isMem
  rw [Blackboard.stateFor] at resumes
  cases present : board.states[node.hash]? with
  | none =>
      rw [present] at resumes
      rw [resumePoint, present]
      exact eq_zero_of_forNode resumes
  | some state =>
      rw [present] at resumes
      dsimp only at resumes
      rw [resumePoint_eq present]
      split at resumes
      · cases running : state.running with
        | true =>
            rw [if_pos rfl, resumes]
            rfl
        | false => exact rests state index present running resumes
      · next misfits =>
          have notMem : state.kind.position = 0 := by
            cases kind : state.kind with
            | mem found =>
                rw [kind] at misfits
                exact absurd isMem misfits
            | _ => rfl
          rw [notMem, ite_self]
          exact eq_zero_of_forNode resumes

end Blackboard

namespace Forest

variable {forest : Forest} {home tree next : Tree} {composite node child : Node}

theorem Located.eq_of_id (located : forest.Located tree node)
    (found : forest.Located next child) (same : next.id = tree.id) :
    next = tree := by
  have registered := found.inForest
  rw [same, located.inForest] at registered
  exact (Option.some.inj registered).symm

/-- What follows a node is a child of it or the root of a tree. -/
theorem WellFormed.parentOf_of_follows (wellFormed : forest.WellFormed)
    (located : forest.Located tree node) (found : forest.Located next child)
    (follows : next.refTo child ∈ forest.childrenFollowing (tree.refTo node)) :
    next = tree ∧ tree.parentOf child.hash = some node.hash ∨
      child.hash = next.root := by
  rcases located.mem_childrenFollowing_iff.mp follows with
    ⟨_, hash, isChild, same⟩ | ⟨selector, target, _, selected, same⟩
  · have sameHash : child.hash = hash := congrArg NodeRef.hash same
    refine .inl ⟨located.eq_of_id found (congrArg NodeRef.tree same), ?_⟩
    rw [sameHash]
    exact ((wellFormed.trees located.inForest).mem_children_iff
      located.inTree).mp isChild
  · have sameTree := (wellFormed.located_target selected).eq_of_id found
      (congrArg NodeRef.tree same)
    rw [sameTree]
    exact .inr (congrArg NodeRef.hash same)

variable (wellFormed : forest.WellFormed)
  (composed : forest.Located home composite)
include wellFormed composed

theorem WellFormed.hash_notMem_children :
    composite.hash ∉ composite.children := by
  have inHome := wellFormed.trees composed.inForest
  intro member
  have above := (inHome.mem_children_iff composed.inTree).mp member
  exact inHome.not_within_child above .top

theorem Scoped.parentOf_of_mem_children (isScoped : forest.Scoped)
    (found : forest.Located next child)
    (member : child.hash ∈ composite.children) :
    next = home ∧ home.parentOf child.hash = some composite.hash := by
  have inHome := wellFormed.trees composed.inForest
  obtain ⟨listed, registered, _⟩ := inHome.linked composed.inTree member
  obtain ⟨rfl, _⟩ := isScoped.unique
    (wellFormed.located_of_registered composed.inForest registered) found
    (inHome.keyed registered).symm
  exact ⟨rfl, (inHome.mem_children_iff composed.inTree).mp member⟩

theorem Scoped.notMem_children (isScoped : forest.Scoped)
    (located : forest.Located tree node) (different : node.hash ≠ composite.hash)
    (found : forest.Located next child)
    (follows : next.refTo child ∈ forest.childrenFollowing (tree.refTo node)) :
    child.hash ∉ composite.children := by
  intro member
  obtain ⟨rfl, above⟩ :=
    isScoped.parentOf_of_mem_children wellFormed composed found member
  rcases wellFormed.parentOf_of_follows located found follows with
    ⟨rfl, parent⟩ | isRoot
  · rw [above] at parent
    exact different (Option.some.inj parent).symm
  · exact (wellFormed.trees found.inForest).ne_root_of_parentOf above isRoot

theorem Scoped.root_notMem_children (isScoped : forest.Scoped) {id : TreeId}
    (registered : forest.get? id = some tree) :
    tree.rootNode.hash ∉ composite.children := by
  have located := wellFormed.located_root registered
  intro member
  obtain ⟨rfl, above⟩ :=
    isScoped.parentOf_of_mem_children wellFormed composed located member
  exact (wellFormed.trees registered).ne_root_of_parentOf above
    (wellFormed.hash_rootNode registered)

end Forest

namespace Pass

variable {α : Type} {setting : Setting α} {home tree : Tree}
  {composite node : Node} {before middle after : Pass α}

/-- A stretch of a pass that bypasses the composite, unless it enters it. -/
def Shuns (composite : Node) (before after : Pass α) : Prop :=
  ∃ growth, after.log = before.log ++ growth ∧
    (Misses composite.hash growth → Bypasses composite growth)

/-- A tick of a child of the composite, unless the composite is entered. -/
def Reports (composite : Node) (child : NodeHash) (status : Status)
    (before after : Pass α) : Prop :=
  ∃ growth, after.log = before.log ++ growth ∧
    (Misses composite.hash growth → Answers composite child status growth)

namespace Shuns

theorem trans (first : Shuns composite before middle)
    (second : Shuns composite middle after) : Shuns composite before after := by
  obtain ⟨earlier, firstLog, firstShuns⟩ := first
  obtain ⟨later, secondLog, secondShuns⟩ := second
  refine ⟨earlier ++ later, by rw [secondLog, firstLog, List.append_assoc],
    fun misses => ?_⟩
  obtain ⟨missesFirst, missesSecond⟩ := misses_append.mp misses
  exact (firstShuns missesFirst).append (secondShuns missesSecond)

theorem of_aside (aside : Aside tree node before after) :
    Shuns composite before after := by
  obtain ⟨remarks, log, areRemarks⟩ := aside.log
  exact ⟨remarks, log, fun _ => .of_remarks areRemarks⟩

theorem of_flow
    (flow : Flow setting (fun _ _ before _ after => Shuns composite before after)
      tree node before after) : Shuns composite before after := by
  induction flow with
  | start => exact ⟨[], (List.append_nil _).symm, fun _ => .nil⟩
  | aside _ aside induction => exact induction.trans (of_aside aside)
  | child _ _ _ ticked induction => exact induction.trans ticked
  | jump _ _ _ _ ticked induction => exact induction.trans ticked

theorem answers {child : NodeHash} {status : Status}
    (shuns : Shuns composite before middle)
    (reports : Reports composite child status middle after) :
    Reports composite child status before after := by
  obtain ⟨earlier, firstLog, bypasses⟩ := shuns
  obtain ⟨later, secondLog, answers⟩ := reports
  refine ⟨earlier ++ later, by rw [secondLog, firstLog, List.append_assoc],
    fun misses => ?_⟩
  obtain ⟨missesFirst, missesSecond⟩ := misses_append.mp misses
  exact (bypasses missesFirst).answers (answers missesSecond)

end Shuns

theorem Refuses.bypasses (refuses : Refuses tree node before after)
    (noChild : node.hash ∉ composite.children) {growth : List Activity}
    (log : after.log = before.log ++ growth) : Bypasses composite growth := by
  rw [refuses.log, List.append_cancel_left_eq] at log
  subst log
  refine ⟨.cons (fun child isChild _ => if_neg ?_) .nil, by simp [Unfinished]⟩
  rintro rfl
  exact noChild isChild

theorem Enters.unfinished {hash : NodeHash} (enters : Enters tree node before after)
    {growth : List Activity} (log : after.log = before.log ++ growth) :
    Unfinished hash growth := by
  rw [enters.log, List.append_cancel_left_eq] at log
  subst log
  intro ref status member
  split at member <;> simp at member

theorem Enters.bypasses (enters : Enters tree node before after)
    (different : composite.hash ≠ node.hash) {growth : List Activity}
    (log : after.log = before.log ++ growth) : Bypasses composite growth := by
  refine ⟨?_, enters.unfinished log⟩
  rw [enters.log, List.append_cancel_left_eq] at log
  subst log
  refine .cons (fun _ _ _ => rfl) ?_
  split
  · exact .nil
  · exact .cons (fun _ _ _ => if_neg (Ne.symm different)) .nil

theorem Leaves.neutral {status : Status}
    (leaves : Leaves tree node status before after)
    (noChild : node.hash ∉ composite.children) {growth : List Activity}
    (log : after.log = before.log ++ growth) : Neutral composite growth := by
  rw [leaves.log, List.append_cancel_left_eq] at log
  subst log
  refine .cons (fun child isChild known => if_neg ?_) ?_
  · rintro rfl
    exact noChild isChild
  · split
    · exact .nil
    · exact .cons (fun _ _ _ => rfl) .nil

theorem Leaves.unfinished {status : Status} {hash : NodeHash}
    (leaves : Leaves tree node status before after) (different : node.hash ≠ hash)
    {growth : List Activity} (log : after.log = before.log ++ growth) :
    Unfinished hash growth := by
  rw [leaves.log, List.append_cancel_left_eq] at log
  subst log
  intro ref result member
  have same : ref = tree.refTo node := by
    split at member <;> simp at member <;> exact member.1
  rw [same]
  exact different

theorem Leaves.answers {status : Status}
    (leaves : Leaves tree node status before after)
    (different : node.hash ≠ composite.hash) :
    Reports composite node.hash status before after := by
  refine ⟨_, leaves.log, fun _ => ⟨fun other isChild known => ?_,
    leaves.unfinished different leaves.log⟩⟩
  have closes : Neutral composite
      (if status = .running then [] else [.closed (tree.refTo node)]) := by
    split
    · exact .nil
    · exact .cons (fun _ _ _ => rfl) .nil
  rw [List.foldl_cons, closes other isChild]
  exact if_congr eq_comm rfl rfl

/-- A child that is running is where the composite goes on. -/
theorem resumes_of_recordMem (isMem : composite.kind.IsMem) {index : Nat}
    (recorded : PassM.recordMem home composite index before = some ((), after)) :
    (after.board.stateFor home composite).kind = .mem index := by
  obtain ⟨found, isFound⟩ := KindState.exists_mem_of_fits isMem
    (before.board.fits_stateFor home composite)
  have changed : (match (before.board.stateFor home composite).kind with
      | .mem _ => some (.mem index)
      | _ => none : Option KindState) = some (.mem index) := by
    rw [isFound]
  have same : before.updateKind home composite (fun
      | .mem _ => some (.mem index)
      | _ => none) = after := congrArg Prod.snd (Option.some.inj recorded)
  rw [updateKind_of_some changed] at same
  have writes : Writes home composite [] _ _ after :=
    same ▸ Writes.updateState _ _
  have fits := before.board.fits_stateFor home composite
  rw [isFound] at fits
  rw [writes.stateFor fits]

/-- Where a scan from a position leads: a success vouches for all children, and
what is left running for those before the position that is kept. -/
structure Reaches (home : Tree) (composite : Node) (start : Nat)
    (status : Status) (after : Pass α) (growth : List Activity) : Prop where
  unfinished : Unfinished composite.hash growth
  succeeds : status = .success → ∀ told, Vouches composite start told →
    Vouches composite composite.children.length (told ++ growth)
  waits : status = .running → ∃ index,
    (after.board.stateFor home composite).kind = .mem index ∧
    ∀ told, Vouches composite start told →
      Vouches composite index (told ++ growth)

namespace Reaches

variable {start : Nat} {child : NodeHash} {status : Status}
  {visited later : List Activity}

theorem of_end (atEnd : composite.children.length ≤ start) :
    Reaches home composite start .success after [] where
  unfinished := .nil
  succeeds _ told vouches := by
    intro child member
    rw [List.append_nil]
    apply vouches
    rw [List.take_length] at member
    rwa [List.take_of_length_le atEnd]
  waits := nofun

theorem of_running (answers : Answers composite child .running visited)
    (distinct : composite.children.Nodup)
    (listed : composite.children[start]? = some child)
    (bypasses : Bypasses composite later)
    (resumes : (after.board.stateFor home composite).kind = .mem start) :
    Reaches home composite start .running after (visited ++ later) where
  unfinished := answers.unfinished.append bypasses.unfinished
  succeeds := nofun
  waits _ := by
    refine ⟨start, resumes, fun told vouches => ?_⟩
    rw [← List.append_assoc]
    exact bypasses.neutral.vouches (answers.vouches distinct listed vouches)

theorem of_success (answers : Answers composite child .success visited)
    (listed : composite.children[start]? = some child)
    (reaches : Reaches home composite (start + 1) status after later) :
    Reaches home composite start status after (visited ++ later) where
  unfinished := answers.unfinished.append reaches.unfinished
  succeeds succeeded told vouches := by
    rw [← List.append_assoc]
    exact reaches.succeeds succeeded _ (answers.vouches_succ listed vouches)
  waits running := by
    obtain ⟨index, resumes, waits⟩ := reaches.waits running
    refine ⟨index, resumes, fun told vouches => ?_⟩
    rw [← List.append_assoc]
    exact waits _ (answers.vouches_succ listed vouches)

theorem of_stop (unfinished : Unfinished composite.hash visited)
    (failed : status ≠ .success) (stopped : status ≠ .running) :
    Reaches home composite start status after visited where
  unfinished := unfinished
  succeeds succeeded := absurd succeeded failed
  waits running := absurd running stopped

end Reaches

section Ticks

variable (wellFormed : setting.forest.WellFormed)
  (isScoped : setting.forest.Scoped)
  (composed : setting.forest.Located home composite)
include wellFormed isScoped composed

/-- The nodes that follow a node other than the composite are no children of
the composite, and bypass it. -/
theorem shuns_of_tick {fuel : Nat} {status : Status}
    (located : setting.forest.Located tree node)
    (noChild : node.hash ∉ composite.children)
    (ended : PassM.tick setting fuel tree node before = some (status, after)) :
    Shuns composite before after := by
  induction fuel generalizing tree node before after status with
  | zero => cases ended
  | succ fuel induction =>
      rcases PassM.tick_flow wellFormed located ended with
        ⟨_, refused⟩ | ⟨opened, body, enters, _, flow, leaves⟩
      · exact ⟨_, refused.log, fun _ => refused.bypasses noChild refused.log⟩
      by_cases same : node.hash = composite.hash
      -- Only the composite itself leads to its children, and it is not missed.
      · obtain ⟨inner, wanders⟩ := Flow.wanders (flow.mono
          fun ⟨found, _, ticked, _⟩ => PassM.visits_of_tick wellFormed found
            ticked)
        obtain ⟨opening, openingLog, _⟩ := enters.quiet
        obtain ⟨closing, closingLog, _⟩ := leaves.quiet
        refine ⟨.entered (tree.refTo node) :: (opening ++ (inner ++
          .finished (tree.refTo node) status :: closing)), ?_, fun misses => ?_⟩
        · rw [closingLog, wanders.log, openingLog]
          simp
        · exact absurd same (misses _ List.mem_cons_self)
      have flowed : Shuns composite opened body := by
        refine .of_flow (flow.mono ?_)
        intro next child _ _ _ ⟨found, follows, ticked, _⟩
        exact induction found (isScoped.notMem_children wellFormed composed
          located same found follows) ticked
      have begins : Shuns composite before opened :=
        ⟨_, enters.log, fun _ => enters.bypasses (Ne.symm same) enters.log⟩
      have ends : Shuns composite body after :=
        ⟨_, leaves.log, fun _ => ⟨leaves.neutral noChild leaves.log,
          leaves.unfinished same leaves.log⟩⟩
      exact (begins.trans flowed).trans ends

/-- The tick of a child tells its result, and nothing else about the
composite. -/
theorem reports_of_tick {fuel : Nat} {status : Status}
    (located : setting.forest.Located tree node)
    (isChild : node.hash ∈ composite.children)
    (ended : PassM.tick setting fuel tree node before = some (status, after)) :
    Reports composite node.hash status before after := by
  cases fuel with
  | zero => cases ended
  | succ fuel =>
      rcases PassM.tick_flow wellFormed located ended with
        ⟨rfl, refused⟩ | ⟨opened, body, enters, _, flow, leaves⟩
      · refine ⟨_, refused.log, fun _ => ⟨fun _ _ _ => ?_, by simp [Unfinished]⟩⟩
        exact if_congr eq_comm rfl rfl
      have different : node.hash ≠ composite.hash := by
        intro same
        rw [same] at isChild
        exact wellFormed.hash_notMem_children composed isChild
      have flowed : Shuns composite opened body := by
        refine .of_flow (flow.mono ?_)
        intro next child _ _ _ ⟨found, follows, ticked, _⟩
        exact shuns_of_tick wellFormed isScoped composed found
          (isScoped.notMem_children wellFormed composed located different found
            follows) ticked
      have begins : Shuns composite before opened :=
        ⟨_, enters.log, fun _ => enters.bypasses (Ne.symm different) enters.log⟩
      exact (begins.trans flowed).answers (leaves.answers different)

theorem reports_of_tickChild {fuel index : Nat} {status : Status}
    (ended : PassM.tickChild (PassM.tick setting fuel) home composite index
      before = some (status, after)) :
    (status = .error ∧ after.log = before.log) ∨
      ∃ child, composite.children[index]? = some child ∧
        Reports composite child status before after := by
  rw [PassM.tickChild] at ended
  cases isChild : home.childAt composite index with
  | none =>
      rw [isChild] at ended
      cases ended
      exact .inl ⟨rfl, rfl⟩
  | some child =>
      rw [isChild] at ended
      obtain ⟨hash, listed, registered⟩ := Option.bind_eq_some_iff.mp isChild
      have inHome := wellFormed.trees composed.inForest
      rw [← inHome.keyed registered] at listed
      exact .inr ⟨child.hash, listed, reports_of_tick wellFormed isScoped composed
        (wellFormed.located_childAt composed isChild)
        (List.mem_of_getElem? listed) ended⟩

/-- A scan of the children from a position on. -/
theorem reaches_of_scanMem {fuel start count : Nat} {status : Status}
    (isMem : composite.kind.IsMem)
    (enough : composite.children.length ≤ start + count)
    (ended : PassM.scanMem (PassM.tickChild (PassM.tick setting fuel) home
      composite) (PassM.recordMem home composite) .success
      (List.range' start count) before = some (status, after)) :
    ∃ growth, after.log = before.log ++ growth ∧
      (Misses composite.hash growth →
        Reaches home composite start status after growth) := by
  induction count generalizing start before with
  | zero =>
      cases ended
      exact ⟨[], (List.append_nil _).symm, fun _ => .of_end enough⟩
  | succ count induction =>
      rw [List.range'_succ, PassM.scanMem, PassM.bind_apply] at ended
      obtain ⟨⟨found, middle⟩, ticked, ended⟩ :=
        Option.bind_eq_some_iff.mp ended
      dsimp only at ended
      rcases reports_of_tickChild wellFormed isScoped composed ticked with
        ⟨rfl, missing⟩ | ⟨child, listed, visited, visitedLog, reports⟩
      · cases ended
        exact ⟨[], by rw [missing, List.append_nil], fun _ =>
          .of_stop .nil (by decide) (by decide)⟩
      by_cases running : found = .running
      · subst running
        rw [if_pos rfl, PassM.bind_apply] at ended
        obtain ⟨⟨_, last⟩, recorded, ended⟩ :=
          Option.bind_eq_some_iff.mp ended
        cases ended
        have aside := PassM.aside_of_recorded
          (PassM.recordMem_eq home composite start middle) recorded
        obtain ⟨remarks, log, areRemarks⟩ := aside.log
        refine ⟨visited ++ remarks,
          by rw [log, visitedLog, List.append_assoc], fun misses => ?_⟩
        have distinct := (wellFormed.trees composed.inForest).children_nodup
          composed.inTree
        exact .of_running (reports (misses_append.mp misses).1) distinct listed
          (.of_remarks areRemarks) (resumes_of_recordMem isMem recorded)
      rw [if_neg running] at ended
      by_cases succeeded : found = .success
      · subst succeeded
        rw [if_pos rfl] at ended
        obtain ⟨later, laterLog, reaches⟩ := induction (by omega) ended
        refine ⟨visited ++ later,
          by rw [laterLog, visitedLog, List.append_assoc], fun misses => ?_⟩
        obtain ⟨missesFirst, missesLater⟩ := misses_append.mp misses
        exact .of_success (reports missesFirst) listed (reaches missesLater)
      · rw [if_neg succeeded] at ended
        cases ended
        exact ⟨visited, visitedLog, fun misses =>
          .of_stop (reports misses).unfinished succeeded running⟩

end Ticks

/-- The entry is no success of the composite unless the entries before it vouch
for all children. -/
def IsEarned (composite : Node) (told : List Activity) (activity : Activity) :
    Prop :=
  ∀ ref, activity = .finished ref .success → ref.hash = composite.hash →
    Vouches composite composite.children.length told

/-- What holds of a composite throughout a pass, after what was told before it:
the children before its position have succeeded, and it has no success that it
did not earn. -/
structure Warrants (composite : Node) (past : List Activity) (pass : Pass α) :
    Prop where
  rests : pass.board.Rests composite.hash
  vouched : Vouches composite (pass.board.resumePoint composite.hash)
    (past ++ pass.log)
  earned : Justified (IsEarned composite) past pass.log

/-- A stretch of whole updates that keeps up what holds of the composite, unless
an update of the composite stands within another one. -/
def Sustains (composite : Node) (past : List Activity) (before after : Pass α) :
    Prop :=
  ∃ growth, after.log = before.log ++ growth ∧ Nested growth ∧
    (reenters composite.hash 0 growth = false →
      Warrants composite past before → Warrants composite past after)

variable {past : List Activity}

theorem justified_of_unfinished {growth : List Activity}
    (unfinished : Unfinished composite.hash growth) :
    Justified (IsEarned composite) past growth := by
  apply Justified.of_free
  rintro _ member told ref rfl same
  exact absurd same (unfinished ref _ member)

theorem Warrants.bypass (warrants : Warrants composite past before)
    {growth : List Activity} (log : after.log = before.log ++ growth)
    (kept : after.board.states[composite.hash]? =
      before.board.states[composite.hash]?)
    (bypasses : Bypasses composite growth) : Warrants composite past after where
  rests := warrants.rests.congr kept
  vouched := by
    rw [Blackboard.resumePoint_congr kept, log, ← List.append_assoc]
    exact bypasses.neutral.vouches warrants.vouched
  earned := by
    rw [log]
    exact warrants.earned.append (justified_of_unfinished bypasses.unfinished)

namespace Sustains

theorem trans (first : Sustains composite past before middle)
    (second : Sustains composite past middle after) :
    Sustains composite past before after := by
  obtain ⟨earlier, firstLog, firstNested, firstKeeps⟩ := first
  obtain ⟨later, secondLog, secondNested, secondKeeps⟩ := second
  refine ⟨earlier ++ later, by rw [secondLog, firstLog, List.append_assoc],
    firstNested.append secondNested, fun single warrants => ?_⟩
  rw [reenters_append firstNested, Bool.or_eq_false_iff] at single
  exact secondKeeps single.2 (firstKeeps single.1 warrants)

theorem of_aside (aside : Aside tree node before after)
    (different : composite.hash ≠ node.hash) :
    Sustains composite past before after := by
  obtain ⟨remarks, log, areRemarks⟩ := aside.log
  have quiet : Quiet remarks := fun activity member =>
    Activity.isQuiet_of_isRemark (areRemarks activity member)
  exact ⟨remarks, log, quiet.nested, fun _ warrants =>
    warrants.bypass log (aside.elsewhere different) (.of_remarks areRemarks)⟩

theorem of_flow
    (flow : Flow setting
      (fun _ _ before _ after => Sustains composite past before after)
      tree node before after)
    (different : composite.hash ≠ node.hash) :
    Sustains composite past before after := by
  induction flow with
  | start => exact ⟨[], (List.append_nil _).symm, .nil, fun _ => id⟩
  | aside _ aside induction => exact induction.trans (of_aside aside different)
  | child _ _ _ ticked induction => exact induction.trans ticked
  | jump _ _ _ _ ticked induction =>
      obtain ⟨growth, log, nested, keeps⟩ := ticked
      refine induction.trans ⟨growth, log, nested, fun single warrants => ?_⟩
      have kept := keeps single ⟨warrants.rests, warrants.vouched, warrants.earned⟩
      exact ⟨kept.rests, kept.vouched, kept.earned⟩

end Sustains

theorem Enters.position_kept {index : Nat}
    (enters : Enters home composite before after)
    (resumes : (before.board.stateFor home composite).kind = .mem index) :
    (after.board.stateFor home composite).kind = .mem index := by
  obtain ⟨state, present, _, kind⟩ := enters.resumes resumes
  have fits := before.board.fits_stateFor home composite
  rw [resumes, ← kind] at fits
  rw [Blackboard.stateFor_eq home present fits, kind]

/-- When the composite is entered, the children before its position are vouched
for: it is at the first child if it is opened. -/
theorem Warrants.vouches_of_enters {start : Nat}
    (warrants : Warrants composite past before)
    (enters : Enters home composite before after)
    (resumes : (before.board.stateFor home composite).kind = .mem start) :
    Vouches composite start (past ++ after.log) := by
  cases wasRunning : (before.board.stateFor home composite).running with
  | true =>
      rw [enters.log, if_pos wasRunning, ← List.append_assoc,
        warrants.rests.position_eq resumes]
      exact (Neutral.cons (fun _ _ _ => rfl) .nil).vouches warrants.vouched
  | false =>
      rw [warrants.rests.stateFor wasRunning resumes]
      exact vouches_zero _

/-- When the composite is left, what its scan reached is kept or earned. -/
theorem Reaches.warrants {start : Nat} {status : Status} {opened body : Pass α}
    {inner : List Activity}
    (reaches : Reaches home composite start status body inner)
    (innerLog : body.log = opened.log ++ inner)
    (noChild : composite.hash ∉ composite.children)
    (begins : Vouches composite start (past ++ opened.log))
    (earned : Justified (IsEarned composite) past opened.log)
    (leaves : Leaves home composite status body after) :
    Warrants composite past after where
  rests := leaves.rests
  vouched := by
    obtain ⟨state, present, isRunning, kind⟩ := leaves.here
    rw [Blackboard.resumePoint_eq present]
    by_cases running : status = .running
    · obtain ⟨index, goesOn, waits⟩ := reaches.waits running
      have vouches := waits _ begins
      rw [List.append_assoc, ← innerLog] at vouches
      rw [if_pos (isRunning.mpr running), kind, if_pos running, goesOn,
        leaves.log, ← List.append_assoc]
      exact (leaves.neutral noChild leaves.log).vouches vouches
    · rw [if_neg fun flagged => running (isRunning.mp flagged)]
      exact vouches_zero _
  earned := by
    rw [leaves.log, innerLog]
    refine (earned.append (justified_of_unfinished reaches.unfinished)).append
      (.cons ?_ ?_)
    · intro ref succeeded _
      have vouches :=
        reaches.succeeds (Activity.finished.inj succeeded).2 _ begins
      rwa [List.append_assoc] at vouches
    · rintro _ member told ref rfl
      split at member <;> simp at member

section Whole

variable (wellFormed : setting.forest.WellFormed)
  (isScoped : setting.forest.Scoped)
  (composed : setting.forest.Located home composite)
  (isSequence : composite.kind = .memSequence)
include wellFormed isScoped composed isSequence

theorem reaches_of_update {fuel start : Nat} {status : Status}
    (resumes : (before.board.stateFor home composite).kind = .mem start)
    (updated : PassM.update setting fuel (PassM.tick setting fuel) home composite
      before = some (status, after)) :
    ∃ growth, after.log = before.log ++ growth ∧
      (Misses composite.hash growth →
        Reaches home composite start status after growth) := by
  rw [PassM.update, isSequence] at updated
  dsimp only at updated
  rw [resumeMem_eq resumes] at updated
  have enough : composite.children.length ≤
      start + (composite.children.length - start) := by omega
  have ensured : (before.ensureState home composite).2.log = before.log := rfl
  rw [← ensured]
  exact reaches_of_scanMem wellFormed isScoped composed (.inl isSequence) enough
    updated

/-- The tick of the composite itself, unless it is entered again within. -/
theorem warrants_of_update {fuel : Nat} {status : Status}
    {opened body : Pass α} {inner : List Activity}
    (enters : Enters home composite before opened)
    (updated : PassM.update setting fuel (PassM.tick setting fuel) home composite
      opened = some (status, body))
    (leaves : Leaves home composite status body after)
    (innerLog : body.log = opened.log ++ inner)
    (misses : Misses composite.hash inner)
    (warrants : Warrants composite past before) :
    Warrants composite past after := by
  obtain ⟨start, resumes⟩ := KindState.exists_mem_of_fits (.inl isSequence)
    (before.board.fits_stateFor home composite)
  obtain ⟨growth, log, reaches⟩ := reaches_of_update wellFormed isScoped composed
    isSequence (enters.position_kept resumes) updated
  rw [innerLog, List.append_cancel_left_eq] at log
  subst log
  have earned : Justified (IsEarned composite) past opened.log := by
    rw [enters.log]
    exact warrants.earned.append
      (justified_of_unfinished (enters.unfinished enters.log))
  exact (reaches misses).warrants innerLog
    (wellFormed.hash_notMem_children composed)
    (warrants.vouches_of_enters enters resumes) earned leaves

/-- What holds of a MemSequence does so after any tick in which no update of it
stands within another one. -/
theorem sustains_of_tick {fuel : Nat} {status : Status}
    (located : setting.forest.Located tree node)
    (noChild : node.hash ∉ composite.children)
    (ended : PassM.tick setting fuel tree node before = some (status, after)) :
    Sustains composite past before after := by
  -- Children of the composite are ticked by it alone, where the scan accounts
  -- for them, so the induction is on the ticks of all other nodes.
  induction fuel generalizing tree node before after status with
  | zero => cases ended
  | succ fuel induction =>
      rcases PassM.tick_flow wellFormed located ended with
        ⟨_, refused⟩ | ⟨opened, body, enters, updated, flow, leaves⟩
      · exact ⟨_, refused.log, .entry rfl .nil, fun _ warrants =>
          warrants.bypass refused.log (by rw [refused.states])
            (refused.bypasses noChild refused.log)⟩
      obtain ⟨opening, openingLog, openingQuiet⟩ := enters.quiet
      obtain ⟨closing, closingLog, closingQuiet⟩ := leaves.quiet
      have wraps : ∀ {inner : List Activity}, Nested inner →
          body.log = opened.log ++ inner →
          (reenters composite.hash 0 (.entered (tree.refTo node) ::
            (opening ++ inner ++
              .finished (tree.refTo node) status :: closing)) = false →
            Warrants composite past before → Warrants composite past after) →
          Sustains composite past before after := by
        intro inner nested innerLog keeps
        refine ⟨_, ?_, .update (openingQuiet.nested.append nested)
          closingQuiet.nested, keeps⟩
        rw [closingLog, innerLog, openingLog]
        simp
      by_cases same : node.hash = composite.hash
      · obtain ⟨rfl, rfl⟩ := isScoped.unique composed located same
        obtain ⟨inner, wanders⟩ := Flow.wanders (flow.mono
          fun ⟨found, _, ticked, _⟩ => PassM.visits_of_tick wellFormed found
            ticked)
        have nested := openingQuiet.nested.append wanders.nested
        refine wraps wanders.nested wanders.log fun single => ?_
        have sameHash : (tree.refTo node).hash = node.hash := rfl
        rw [reenters_update nested, if_pos sameHash, Bool.or_eq_false_iff,
          Bool.or_eq_false_iff] at single
        exact warrants_of_update wellFormed isScoped composed isSequence enters
          updated leaves wanders.log
          (misses_append.mp (misses_of_reenters nested single.2.1)).2
      · have flowed : Sustains composite past opened body := by
          refine .of_flow (flow.mono ?_) (Ne.symm same)
          intro next child _ _ _ ⟨found, follows, ticked, _⟩
          exact induction found (isScoped.notMem_children wellFormed composed
            located same found follows) ticked
        obtain ⟨inner, innerLog, nested, keeps⟩ := flowed
        refine wraps nested innerLog fun single warrants => ?_
        have others : (tree.refTo node).hash ≠ composite.hash := same
        rw [reenters_update (openingQuiet.nested.append nested), if_neg others,
          reenters_append openingQuiet.nested, Bool.or_eq_false_iff,
          Bool.or_eq_false_iff] at single
        have entered := warrants.bypass enters.log
          (enters.elsewhere (Ne.symm same))
          (enters.bypasses (Ne.symm same) enters.log)
        exact (keeps single.1.2 entered).bypass leaves.log
          (leaves.elsewhere (Ne.symm same))
          ⟨leaves.neutral noChild leaves.log, leaves.unfinished same leaves.log⟩

end Whole

end Pass

end BehaviorTree
