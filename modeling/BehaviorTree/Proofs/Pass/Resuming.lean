import Mathlib.Data.List.Infix
import BehaviorTree.Proofs.Pass.Running

/-!
# Activations of Mem composites

A Mem composite starts where its state says, and only an activation that is left
running may leave another start than the first child behind.  So if a composite
at rest has its first child to come, it still does after any tick, and each of
its activations within the tick begins with that child, Transitions back into
the composite included.
-/

namespace BehaviorTree

open BehaviorTree.Pass

namespace Blackboard

/-- Unless the node is running, no child but the first is to come next. -/
def Rests (board : Blackboard) (hash : NodeHash) : Prop :=
  ∀ (state : NodeState) (index : Nat), board.states[hash]? = some state →
    state.running = false → state.kind = .mem index → index = 0

variable {board other : Blackboard} {hash : NodeHash}

theorem Rests.congr (rests : board.Rests hash)
    (same : other.states[hash]? = board.states[hash]?) : other.Rests hash := by
  intro state index present
  rw [same] at present
  exact rests state index present

theorem Rests.of_state {state : NodeState}
    (present : board.states[hash]? = some state)
    (atRest : state.running = false → ∀ index, state.kind = .mem index →
      index = 0) : board.Rests hash := by
  intro found index isFound quiet
  rw [present] at isFound
  cases isFound
  exact atRest quiet index

theorem eq_zero_of_forNode {tree : Tree} {node : Node} {index : Nat}
    (isMem : (NodeState.forNode tree node).kind = .mem index) : index = 0 := by
  cases kind : node.kind <;>
    simp [NodeState.forNode, NodeState.initialKind, kind] at isMem
  · exact isMem.symm
  · exact isMem.symm

/-- Fresh states begin with the first child, too. -/
theorem Rests.stateFor {tree : Tree} {node : Node} {index : Nat}
    (rests : board.Rests node.hash)
    (quiet : (board.stateFor tree node).running = false)
    (isMem : (board.stateFor tree node).kind = .mem index) : index = 0 := by
  rw [Blackboard.stateFor] at quiet isMem
  cases present : board.states[node.hash]? with
  | none =>
      rw [present] at isMem
      exact eq_zero_of_forNode isMem
  | some state =>
      rw [present] at quiet isMem
      dsimp only at quiet isMem
      split at isMem
      · next fits =>
          rw [if_pos fits] at quiet
          exact rests state index present quiet isMem
      · exact eq_zero_of_forNode isMem

end Blackboard

namespace NodeKind

/-- The kinds that resume at the child that was running. -/
def IsMem (kind : NodeKind) : Prop := kind = memSequence ∨ kind = memSelector

instance (kind : NodeKind) : Decidable kind.IsMem :=
  inferInstanceAs (Decidable (_ ∨ _))

end NodeKind

theorem KindState.exists_mem_of_fits {state : KindState} {kind : NodeKind}
    (isMem : kind.IsMem) (fits : state.fits kind = true) :
    ∃ index, state = .mem index := by
  rw [KindState.fits, decide_eq_true_eq] at fits
  rcases isMem with rfl | rfl <;>
  · cases state <;> simp [shape, NodeKind.stateShape] at fits
    exact ⟨_, rfl⟩

namespace Pass

/-- The entries begin with a tick of the node. -/
def BeginsWith (ref : NodeRef) (log : List Activity) : Prop :=
  log.head? = some (.entered ref) ∨ log.head? = some (.refused ref)

/-- Each activation of a composite begins with a tick of the given child. -/
def StartsAt (composite child : NodeRef) (log : List Activity) : Prop :=
  ∀ sooner rest, log = sooner ++ .opened composite :: rest →
    BeginsWith child rest

instance (child : NodeRef) (log : List Activity) :
    Decidable (BeginsWith child log) :=
  inferInstanceAs (Decidable (_ ∨ _))

theorem BeginsWith.append {ref : NodeRef} {log : List Activity}
    (begins : BeginsWith ref log) (later : List Activity) :
    BeginsWith ref (log ++ later) := by
  cases log with
  | nil => simp [BeginsWith] at begins
  | cons activity rest => exact begins

instance (composite child : NodeRef) (log : List Activity) :
    Decidable (StartsAt composite child log) :=
  decidable_of_iff
    (∀ tail ∈ log.tails, tail.head? = some (.opened composite) →
      BeginsWith child tail.tail) <| by
    constructor
    · intro begins sooner rest split
      apply begins (.opened composite :: rest) _ rfl
      exact (List.mem_tails _ _).mpr ⟨sooner, split.symm⟩
    · intro starts tail member opens
      obtain ⟨sooner, split⟩ := (List.mem_tails _ _).mp member
      obtain ⟨rest, rfl⟩ := List.head?_eq_some_iff.mp opens
      exact starts sooner rest split.symm

namespace StartsAt

variable {composite child : NodeRef} {log later : List Activity}

theorem of_absent (absent : .opened composite ∉ log) :
    StartsAt composite child log := by
  intro sooner rest split
  exact absurd (split ▸ List.mem_append_right _ List.mem_cons_self) absent

theorem append (first : StartsAt composite child log)
    (second : StartsAt composite child later) :
    StartsAt composite child (log ++ later) := by
  intro sooner rest split
  rcases List.append_eq_append_iff.mp split with
    ⟨middle, _, isLater⟩ | ⟨middle, isLog, isRest⟩
  · exact second _ _ isLater
  cases middle with
  | nil => exact second [] rest isRest.symm
  | cons activity middle =>
      obtain ⟨rfl, rfl⟩ := List.cons.inj isRest
      exact (first _ _ isLog).append later

theorem cons (begins : BeginsWith child log)
    (starts : StartsAt composite child log) :
    StartsAt composite child (.opened composite :: log) := by
  intro sooner rest split
  cases sooner with
  | nil =>
      obtain ⟨_, rfl⟩ := List.cons.inj split
      exact begins
  | cons activity sooner => exact starts _ _ (List.cons.inj split).2

end StartsAt

/-- A stretch of a pass at whose end the composite is at rest if it was at the
beginning, and in which its activations begin with the child. -/
structure Restarts {α : Type} (hash : NodeHash) (composite child : NodeRef)
    (before after : Pass α) : Prop where
  rests : before.board.Rests hash → after.board.Rests hash
  log : ∃ growth, after.log = before.log ++ growth ∧
    (before.board.Rests hash → StartsAt composite child growth)

namespace Restarts

variable {α : Type} {hash : NodeHash} {composite child : NodeRef} {tree : Tree}
  {node : Node} {before middle after : Pass α}

theorem refl : Restarts hash composite child before before where
  rests := id
  log := ⟨[], (List.append_nil _).symm, fun _ => .of_absent List.not_mem_nil⟩

theorem trans (first : Restarts hash composite child before middle)
    (second : Restarts hash composite child middle after) :
    Restarts hash composite child before after where
  rests atRest := second.rests (first.rests atRest)
  log := by
    obtain ⟨earlier, firstLog, firstStarts⟩ := first.log
    obtain ⟨later, secondLog, secondStarts⟩ := second.log
    refine ⟨earlier ++ later, ?_, fun atRest => ?_⟩
    · rw [secondLog, firstLog, List.append_assoc]
    · exact (firstStarts atRest).append (secondStarts (first.rests atRest))

theorem of_untouched {growth : List Activity}
    (untouched : after.board.states[hash]? = before.board.states[hash]?)
    (log : after.log = before.log ++ growth)
    (absent : .opened composite ∉ growth) :
    Restarts hash composite child before after where
  rests atRest := atRest.congr untouched
  log := ⟨growth, log, fun _ => .of_absent absent⟩

theorem of_aside (aside : Aside tree node before after)
    (different : hash ≠ node.hash) :
    Restarts hash composite child before after := by
  obtain ⟨remarks, log, areRemarks⟩ := aside.log
  apply of_untouched (aside.elsewhere different) log
  intro member
  have remark := areRemarks _ member
  cases remark

theorem of_enters (enters : Enters tree node before after)
    (different : hash ≠ node.hash) (others : composite ≠ tree.refTo node) :
    Restarts hash composite child before after := by
  apply of_untouched (enters.elsewhere different) enters.log
  split <;> simp [others]

theorem of_leaves {status : Status} (leaves : Leaves tree node status before after)
    (different : hash ≠ node.hash) :
    Restarts hash composite child before after := by
  apply of_untouched (leaves.elsewhere different) leaves.log
  split <;> simp

theorem of_refuses (refuses : Refuses tree node before after) :
    Restarts hash composite child before after := by
  apply of_untouched (by rw [refuses.states]) refuses.log
  simp

theorem of_flow {setting : Setting α}
    (flow : Flow setting
      (fun _ _ before _ after => Restarts hash composite child before after)
      tree node before after)
    (different : hash ≠ node.hash) :
    Restarts hash composite child before after := by
  induction flow with
  | start => exact refl
  | aside _ aside induction => exact induction.trans (of_aside aside different)
  | child _ _ _ ticked induction => exact induction.trans ticked
  | jump _ _ _ _ ticked induction =>
      have jumped := induction.trans ⟨ticked.rests, ticked.log⟩
      exact ⟨jumped.rests, jumped.log⟩

end Restarts

/-- A stretch of a pass in which the activations of the composite begin with the
child, and which itself begins with it if it is the first to come. -/
def Scans {α : Type} (hash : NodeHash) (composite child : NodeRef)
    (isFirst : Prop) (before after : Pass α) : Prop :=
  ∃ growth, after.log = before.log ++ growth ∧
    (before.board.Rests hash → StartsAt composite child growth) ∧
    (isFirst → BeginsWith child growth)

theorem Scans.append {α : Type} {hash : NodeHash} {composite child : NodeRef}
    {isFirst : Prop} {before middle after : Pass α} {later : List Activity}
    (scans : Scans hash composite child isFirst before middle)
    (log : after.log = middle.log ++ later)
    (starts : before.board.Rests hash → StartsAt composite child later) :
    Scans hash composite child isFirst before after := by
  obtain ⟨visited, visitedLog, visitedStarts, begins⟩ := scans
  refine ⟨visited ++ later, ?_, fun atRest => ?_, fun first => ?_⟩
  · rw [log, visitedLog, List.append_assoc]
  · exact (visitedStarts atRest).append (starts atRest)
  · exact (begins first).append later

theorem resumeMem_eq {α : Type} {visit : PassM.Visit α} {home : Tree}
    {composite : Node} {goOn : Status} {before : Pass α} {index : Nat}
    (resumes : (before.board.stateFor home composite).kind = .mem index) :
    PassM.resumeMem visit home composite goOn before =
      PassM.scanMem (PassM.tickChild visit home composite)
        (PassM.recordMem home composite) goOn
        (List.range' index (composite.children.length - index))
        (before.ensureState home composite).2 := by
  have isStart : (before.ensureState home composite).1.kind = .mem index :=
    resumes
  rw [PassM.resumeMem, PassM.modifyGet_bind, isStart]
  rfl

section Update

variable {α : Type} {setting : Setting α} {fuel : Nat} {home : Tree}
  {composite child : Node} {before after : Pass α} {status : Status}
  (wellFormed : setting.forest.WellFormed)
  (composed : setting.forest.Located home composite)
  (isChild : home.childAt composite 0 = some child)
  (restarts : ∀ {tree : Tree} {node : Node} {before after : Pass α}
    {status : Status}, setting.forest.Located tree node →
    PassM.tick setting fuel tree node before = some (status, after) →
    Restarts composite.hash (home.refTo composite) (home.refTo child) before
      after)

include wellFormed composed restarts in
theorem restarts_of_tickChild {index : Nat}
    (ended : PassM.tickChild (PassM.tick setting fuel) home composite index
      before = some (status, after)) :
    Restarts composite.hash (home.refTo composite) (home.refTo child) before
      after := by
  rw [PassM.tickChild] at ended
  cases isFound : home.childAt composite index with
  | none =>
      rw [isFound] at ended
      cases ended
      exact ⟨id, Restarts.refl.log⟩
  | some found =>
      rw [isFound] at ended
      exact restarts (wellFormed.located_childAt composed isFound) ended

include wellFormed composed isChild restarts

theorem scans_of_tickChild {index : Nat}
    (ended : PassM.tickChild (PassM.tick setting fuel) home composite index
      before = some (status, after)) :
    Scans composite.hash (home.refTo composite) (home.refTo child) (index = 0)
      before after := by
  obtain ⟨visited, log, starts⟩ :=
    (restarts_of_tickChild wellFormed composed restarts ended).log
  refine ⟨visited, log, starts, ?_⟩
  rintro rfl
  rw [PassM.tickChild, isChild] at ended
  obtain ⟨growth, ticked, _, begins⟩ := PassM.begins_of_tick wellFormed
    (wellFormed.located_childAt composed isChild) ended
  rw [log, List.append_cancel_left_eq] at ticked
  exact ticked ▸ begins

theorem scans_of_scanMem {indices : List Nat} {goOn : Status}
    (ended : PassM.scanMem (PassM.tickChild (PassM.tick setting fuel) home
      composite) (PassM.recordMem home composite) goOn indices before =
      some (status, after)) :
    Scans composite.hash (home.refTo composite) (home.refTo child)
      (indices.head? = some 0) before after := by
  induction indices generalizing before with
  | nil =>
      cases ended
      exact ⟨[], (List.append_nil _).symm,
        fun _ => .of_absent List.not_mem_nil, nofun⟩
  | cons index rest induction =>
      rw [PassM.scanMem, PassM.bind_apply] at ended
      obtain ⟨⟨found, middle⟩, ticked, ended⟩ :=
        Option.bind_eq_some_iff.mp ended
      have stretch := restarts_of_tickChild wellFormed composed restarts ticked
      have visited :=
        scans_of_tickChild wellFormed composed isChild restarts ticked
      rw [List.head?_cons, Option.some_inj]
      dsimp only at ended
      by_cases running : found = .running
      · rw [if_pos running, PassM.bind_apply] at ended
        obtain ⟨⟨_, last⟩, recorded, ended⟩ :=
          Option.bind_eq_some_iff.mp ended
        cases ended
        have aside := PassM.aside_of_recorded
          (PassM.recordMem_eq home composite index middle) recorded
        obtain ⟨remarks, log, areRemarks⟩ := aside.log
        refine visited.append log fun _ => .of_absent fun member => ?_
        have remark := areRemarks _ member
        cases remark
      rw [if_neg running] at ended
      by_cases same : found = goOn
      · rw [if_pos same] at ended
        obtain ⟨later, log, starts, _⟩ := induction ended
        exact visited.append log fun atRest => starts (stretch.rests atRest)
      · rw [if_neg same] at ended
        cases ended
        exact visited

/-- The update of a Mem composite begins where its state says. -/
theorem scans_of_resumeMem {index : Nat} {goOn : Status}
    (resumes : (before.board.stateFor home composite).kind = .mem index)
    (ended : PassM.resumeMem (PassM.tick setting fuel) home composite goOn
      before = some (status, after)) :
    Scans composite.hash (home.refTo composite) (home.refTo child) (index = 0)
      before after := by
  have ensures : Writes home composite [] (before.board.stateFor home composite)
      before (before.ensureState home composite).2 :=
    .updateState before id
  rw [resumeMem_eq resumes] at ended
  obtain ⟨growth, log, starts, begins⟩ :=
    scans_of_scanMem wellFormed composed isChild restarts ended
  refine ⟨growth, ?_, fun atRest => ?_, ?_⟩
  · rw [log, ensures.log, List.append_nil]
  · apply starts
    exact Blackboard.Rests.of_state ensures.here fun quiet _ isMem =>
      atRest.stateFor quiet isMem
  · rintro rfl
    have someChild : 0 < composite.children.length := by
      obtain ⟨hash, listed, _⟩ := Option.bind_eq_some_iff.mp isChild
      exact (List.getElem?_eq_some_iff.mp listed).1
    apply begins
    rw [List.head?_range', if_neg (by omega)]

/-- The update that follows an opening begins with the first child. -/
theorem scans_of_update (isMem : composite.kind.IsMem)
    (ended : PassM.update setting fuel (PassM.tick setting fuel) home composite
      before = some (status, after)) :
    Scans composite.hash (home.refTo composite) (home.refTo child)
      ((before.board.stateFor home composite).kind = .mem 0) before after := by
  obtain ⟨index, resumes⟩ := KindState.exists_mem_of_fits isMem
    (before.board.fits_stateFor home composite)
  have resumed : ∃ goOn, PassM.resumeMem (PassM.tick setting fuel) home
      composite goOn before = some (status, after) := by
    rw [PassM.update] at ended
    rcases isMem with kind | kind
    · rw [kind] at ended
      exact ⟨_, ended⟩
    · rw [kind] at ended
      exact ⟨_, ended⟩
  obtain ⟨goOn, resumed⟩ := resumed
  obtain ⟨growth, log, starts, begins⟩ :=
    scans_of_resumeMem wellFormed composed isChild restarts resumes resumed
  refine ⟨growth, log, starts, fun isFirst => begins ?_⟩
  rw [resumes] at isFirst
  exact KindState.mem.inj isFirst

end Update

section Ticks

variable {α : Type} {setting : Setting α} {fuel : Nat} {tree : Tree}
  {node : Node} {before after : Pass α} {status : Status}

theorem eq_zero_of_closedKind {kind : KindState} {index : Nat}
    (closed : closedKind kind = .mem index) : index = 0 := by
  cases kind <;> simp [closedKind] at closed
  exact closed.symm

theorem Leaves.rests (leaves : Leaves tree node status before after) :
    after.board.Rests node.hash := by
  obtain ⟨state, present, running, kind⟩ := leaves.here
  refine .of_state present fun quiet index isMem => ?_
  have ended : status ≠ .running := by
    intro isRunning
    rw [running.mpr isRunning] at quiet
    cases quiet
  rw [kind, if_neg ended] at isMem
  exact eq_zero_of_closedKind isMem

/-- Entering a Mem composite changes neither its start nor its flag, whether
the composite is opened or not. -/
theorem Enters.resumes {home : Tree} {composite : Node} {index : Nat}
    (enters : Enters home composite before after)
    (resumes : (before.board.stateFor home composite).kind = .mem index) :
    ∃ state, after.board.states[composite.hash]? = some state ∧
      state.running = (before.board.stateFor home composite).running ∧
      state.kind = .mem index := by
  obtain ⟨state, present, running, kind⟩ := enters.here
  have synced : NodeState.syncKind (.mem index) composite.kind = .mem index := by
    cases composite.kind <;> rfl
  refine ⟨state, present, running, ?_⟩
  rw [kind, resumes, synced]
  exact ite_self _

theorem rests_abandonNode {pass : Pass α} {hash : NodeHash}
    (atRest : pass.board.Rests hash) (config : HandlerConfig) (tree : Tree)
    (node : Node) : (pass.abandonNode config tree node).board.Rests hash := by
  have writes := pass.writes_abandonNode config tree node
  by_cases same : hash = node.hash
  · rw [same]
    exact .of_state writes.here fun _ _ closed => eq_zero_of_closedKind closed
  · exact atRest.congr (writes.elsewhere same)

theorem Flow.rests {hash : NodeHash}
    (flow : Flow setting
      (fun _ _ before _ after =>
        before.board.Rests hash → after.board.Rests hash)
      tree node before after)
    (different : hash ≠ node.hash) (atRest : before.board.Rests hash) :
    after.board.Rests hash := by
  induction flow with
  | start => exact atRest
  | aside _ aside induction => exact induction.congr (aside.elsewhere different)
  | child _ _ _ ticked induction => exact ticked induction
  | jump _ _ _ _ ticked induction => exact ticked induction

/-- What is at rest before a tick is so after it, whatever its kind. -/
theorem rests_of_tick (wellFormed : setting.forest.WellFormed) {hash : NodeHash}
    (located : setting.forest.Located tree node)
    (ended : PassM.tick setting fuel tree node before = some (status, after))
    (atRest : before.board.Rests hash) : after.board.Rests hash := by
  induction fuel generalizing tree node before after status with
  | zero => cases ended
  | succ fuel induction =>
      rcases PassM.tick_flow wellFormed located ended with
        ⟨_, refused⟩ | ⟨opened, body, enters, _, flow, leaves⟩
      · exact atRest.congr (by rw [refused.states])
      by_cases same : hash = node.hash
      · exact same ▸ leaves.rests
      have flowed : body.board.Rests hash := by
        refine Flow.rests (flow.mono ?_) same
          (atRest.congr (enters.elsewhere same))
        exact fun ⟨found, _, ticked, _⟩ => induction found ticked
      exact flowed.congr (leaves.elsewhere same)

variable {home : Tree} {composite child : Node}

/-- The tick of the composite itself. -/
theorem restarts_of_update (wellFormed : setting.forest.WellFormed)
    (composed : setting.forest.Located home composite)
    (isMem : composite.kind.IsMem)
    (isChild : home.childAt composite 0 = some child)
    (restarts : ∀ {tree : Tree} {node : Node} {before after : Pass α}
      {status : Status}, setting.forest.Located tree node →
      PassM.tick setting fuel tree node before = some (status, after) →
      Restarts composite.hash (home.refTo composite) (home.refTo child) before
        after)
    {opened body : Pass α} (enters : Enters home composite before opened)
    (updated : PassM.update setting fuel (PassM.tick setting fuel) home composite
      opened = some (status, body))
    (leaves : Leaves home composite status body after) :
    Restarts composite.hash (home.refTo composite) (home.refTo child) before
      after := by
  obtain ⟨index, resumes⟩ := KindState.exists_mem_of_fits isMem
    (before.board.fits_stateFor home composite)
  obtain ⟨state, present, running, kind⟩ := enters.resumes resumes
  have fits : state.kind.fits composite.kind = true := by
    have fits := before.board.fits_stateFor home composite
    rwa [resumes, ← kind] at fits
  have current := Blackboard.stateFor_eq home present fits
  obtain ⟨growth, log, starts, begins⟩ := scans_of_update wellFormed composed
    isChild restarts isMem updated
  have opensAtRest : before.board.Rests composite.hash →
      opened.board.Rests composite.hash := by
    intro atRest
    refine .of_state present fun quiet found isFound => ?_
    rw [kind] at isFound
    rw [← KindState.mem.inj isFound]
    exact atRest.stateFor (running ▸ quiet) resumes
  have quietTail : .opened (home.refTo composite) ∉
      (.finished (home.refTo composite) status ::
        if status = .running then [] else [.closed (home.refTo composite)] :
        List Activity) := by
    split <;> simp
  have ends : before.board.Rests composite.hash →
      StartsAt (home.refTo composite) (home.refTo child) (growth ++ _) :=
    fun atRest => (starts (opensAtRest atRest)).append (.of_absent quietTail)
  have entersQuietly : StartsAt (home.refTo composite) (home.refTo child)
      [.entered (home.refTo composite)] := .of_absent (by simp)
  cases wasRunning : (before.board.stateFor home composite).running with
  | true =>
      refine ⟨fun _ => leaves.rests, _, ?_, fun atRest =>
        entersQuietly.append (ends atRest)⟩
      rw [leaves.log, log, enters.log, if_pos wasRunning]
      simp only [List.append_assoc]
  | false =>
      refine ⟨fun _ => leaves.rests, _, ?_, fun atRest =>
        entersQuietly.append (.cons ?_ (ends atRest))⟩
      · rw [leaves.log, log, enters.log, wasRunning,
          if_neg Bool.false_ne_true]
        simp
      · apply BeginsWith.append
        apply begins
        rw [current, kind, atRest.stateFor wasRunning resumes]

/-- After any history that leaves a Mem composite at rest, each of its
activations within a tick begins with the first child. -/
theorem restarts_of_tick (wellFormed : setting.forest.WellFormed)
    (isScoped : setting.forest.Scoped)
    (composed : setting.forest.Located home composite)
    (isMem : composite.kind.IsMem)
    (isChild : home.childAt composite 0 = some child)
    (located : setting.forest.Located tree node)
    (ended : PassM.tick setting fuel tree node before = some (status, after)) :
    Restarts composite.hash (home.refTo composite) (home.refTo child) before
      after := by
  induction fuel generalizing tree node before after status with
  | zero => cases ended
  | succ fuel induction =>
      rcases PassM.tick_flow wellFormed located ended with
        ⟨_, refused⟩ | ⟨opened, body, enters, updated, flow, leaves⟩
      · exact .of_refuses refused
      by_cases same : node.hash = composite.hash
      · obtain ⟨rfl, rfl⟩ := isScoped.unique composed located same
        exact restarts_of_update wellFormed composed isMem isChild induction
          enters updated leaves
      have others : home.refTo composite ≠ tree.refTo node :=
        fun equal => same (congrArg NodeRef.hash equal).symm
      have flowed : Restarts composite.hash (home.refTo composite)
          (home.refTo child) opened body := by
        refine .of_flow (flow.mono ?_) (Ne.symm same)
        exact fun ⟨found, _, ticked, _⟩ => induction found ticked
      exact ((Restarts.of_enters enters (Ne.symm same) others).trans flowed).trans
        (.of_leaves leaves (Ne.symm same))

end Ticks

end Pass

end BehaviorTree
