import BehaviorTree.Proofs.Forest.Leading
import BehaviorTree.Proofs.Pass.Fitting
import BehaviorTree.Proofs.Pass.Succeeding

/-!
# Diaries of composites

The journal of a pass tells which children an update of a composite ticked, in
which order and with what results, and what the update came to.  If no way leads
from the composite back to it, nothing but its own updates ticks its children or
writes to its state.  So what each update keeps of the diary and the state,
whole passes keep.
-/

namespace BehaviorTree

open BehaviorTree.Pass

/-- Of each entry of a list something holds, given the entries before it. -/
def Throughout {β : Type} (law : List β → β → Prop) (entries : List β) : Prop :=
  ∀ earlier entry later, entries = earlier ++ entry :: later → law earlier entry

namespace Throughout

variable {β : Type} {law : List β → β → Prop} {entries : List β}

theorem nil : Throughout law [] := by
  intro earlier entry later split
  simp at split

theorem snoc (holds : Throughout law entries) {last : β}
    (next : law entries last) : Throughout law (entries ++ [last]) := by
  intro earlier entry later split
  rcases List.eq_nil_or_concat later with rfl | ⟨rest, final, rfl⟩
  · obtain ⟨rfl, same⟩ := List.append_inj' split rfl
    cases same
    exact next
  · rw [List.concat_eq_append, ← List.cons_append, ← List.append_assoc] at split
    obtain ⟨rfl, _⟩ := List.append_inj' split rfl
    exact holds earlier entry rest rfl

theorem of_append {later : List β} (holds : Throughout law (entries ++ later)) :
    Throughout law entries := by
  intro earlier entry rest split
  refine holds earlier entry (rest ++ later) ?_
  rw [split, List.append_assoc, List.cons_append]

end Throughout

/-- Children that were ticked, with their results. -/
abbrev Replies : Type := List (NodeHash × Status)

namespace Replies

/-- The children that gave a result, in the order of their replies. -/
def passed (goOn : Status) (replies : Replies) : List NodeHash :=
  (replies.filter fun reply => reply.2 = goOn).map Prod.fst

variable {goOn : Status}

theorem passed_append (earlier later : Replies) :
    passed goOn (earlier ++ later) = passed goOn earlier ++ passed goOn later := by
  simp [passed]

theorem passed_singleton (reply : NodeHash × Status) :
    passed goOn [reply] = if reply.2 = goOn then [reply.1] else [] := by
  by_cases goesOn : reply.2 = goOn <;> simp [passed, goesOn]

theorem mem_passed {replies : Replies} {child : NodeHash} :
    child ∈ passed goOn replies ↔ (child, goOn) ∈ replies := by
  simp [passed]

/-- No child is ticked again that did more than run. -/
def Once : Replies → Prop :=
  Throughout fun done reply => ∀ former ∈ done, former.1 = reply.1 →
    former.2 = .running

end Replies

/-- The reply of the child at a position; none if there is no child. -/
def Node.replyAt (composite : Node) (index : Nat) (status : Status) : Replies :=
  (composite.children[index]?).toList.map (·, status)

theorem Node.replyAt_eq {composite : Node} {index : Nat} {child : NodeHash}
    (listed : composite.children[index]? = some child) (status : Status) :
    composite.replyAt index status = [(child, status)] := by
  rw [replyAt, listed]
  rfl

/-- The reply that the tick of a node is for a composite; none unless the node
is a child of it. -/
def Node.replyOf (composite : Node) (hash : NodeHash) (status : Status) :
    Replies :=
  if hash ∈ composite.children then [(hash, status)] else []

/-- The result with which a composite goes on to the next child. -/
def NodeKind.continueStatus : NodeKind → Status
  | sequence | memSequence | probSequence => .success
  | _ => .failure

theorem NodeKind.continueStatus_ne_running (kind : NodeKind) :
    kind.continueStatus ≠ .running := by
  cases kind <;> simp [continueStatus]

theorem NodeKind.continueStatus_ne_error (kind : NodeKind) :
    kind.continueStatus ≠ .error := by
  cases kind <;> simp [continueStatus]

/-- An update goes on after each reply but the last one, and comes to the result
of the last one. -/
structure Sequenced (goOn : Status) (replies : Replies) (result : Status) :
    Prop where
  goesOn : ∀ reply ∈ replies.dropLast, reply.2 = goOn
  stops : ∀ reply ∈ replies.getLast?, result = reply.2
  succeeds : replies = [] → result = goOn

namespace Sequenced

variable {goOn result : Status} {replies : Replies}

theorem nil : Sequenced goOn [] goOn := ⟨nofun, nofun, fun _ => rfl⟩

theorem single (child : NodeHash) (status : Status) :
    Sequenced goOn [(child, status)] status where
  goesOn := nofun
  stops reply last := by
    cases last
    rfl
  succeeds := nofun

theorem cons (sequenced : Sequenced goOn replies result) (child : NodeHash) :
    Sequenced goOn ((child, goOn) :: replies) result := by
  cases replies with
  | nil =>
      rw [sequenced.succeeds rfl]
      exact single child goOn
  | cons next rest =>
      refine ⟨fun reply member => ?_, fun reply last => ?_, nofun⟩
      · rcases List.mem_cons.mp member with rfl | member
        · rfl
        · exact sequenced.goesOn reply member
      · rw [List.getLast?_cons_cons] at last
        exact sequenced.stops reply last

end Sequenced

/-- One update of a composite. -/
structure Stint where
  /-- The activation was opened after another one had been closed. -/
  fresh : Bool
  /-- The replies to earlier updates of the activation; none if the activation
  was opened before the diary begins. -/
  earlier : Option Replies
  replies : Replies
  result : Status

/-- What is known of the updates of a composite. -/
structure Diary where
  /-- The updates that came to a result, first to last. -/
  stints : List Stint := []
  fresh : Bool := false
  /-- The replies to the updates of the latest activation. -/
  told : Option Replies := none
  /-- The replies to the update under way. -/
  replies : Replies := []
  /-- The latest activation was closed. -/
  closed : Bool := false

namespace Diary

def opening (diary : Diary) : Diary :=
  { diary with fresh := diary.closed, told := some [], closed := false }

def reply (diary : Diary) (child : NodeHash) (status : Status) : Diary :=
  { diary with replies := diary.replies ++ [(child, status)] }

def finish (diary : Diary) (result : Status) : Diary :=
  { diary with
    stints := diary.stints ++
      [{ fresh := diary.fresh, earlier := diary.told, replies := diary.replies,
         result }]
    told := diary.told.map (· ++ diary.replies)
    replies := [] }

def closing (diary : Diary) : Diary :=
  { diary with closed := true }

/-- The diary of a composite after an entry of the journal. -/
def note (composite : Node) (diary : Diary) : Activity → Diary
  | .opened ref =>
    if ref.hash = composite.hash then diary.opening else diary
  | .closed ref =>
    if ref.hash = composite.hash then diary.closing else diary
  | .refused ref =>
    if ref.hash ∈ composite.children then diary.reply ref.hash .error else diary
  | .finished ref status =>
    if ref.hash = composite.hash then diary.finish status
    else if ref.hash ∈ composite.children then diary.reply ref.hash status
    else diary
  | _ => diary

def read (composite : Node) (diary : Diary) (log : List Activity) : Diary :=
  log.foldl (note composite) diary

variable {composite : Node} (diary : Diary)

@[simp] theorem read_append (earlier later : List Activity) :
    diary.read composite (earlier ++ later) =
      (diary.read composite earlier).read composite later :=
  List.foldl_append

/-- The diary when an update begins, which opens the composite unless it is
running. -/
def begun (diary : Diary) (running : Bool) : Diary :=
  if running then diary else diary.opening

/-- The diary after an update. -/
def after (diary : Diary) (running : Bool) (replies : Replies)
    (result : Status) : Diary :=
  let finished := { diary.begun running with replies }.finish result
  if result = .running then finished else finished.closing

@[simp] theorem stints_after (running : Bool) (replies : Replies)
    (result : Status) :
    (diary.after running replies result).stints = diary.stints ++
      [{ fresh := (diary.begun running).fresh
         earlier := (diary.begun running).told, replies, result }] := by
  have begun : (diary.begun running).stints = diary.stints := by
    rw [Diary.begun]
    split <;> rfl
  rw [Diary.after, ← begun]
  split <;> rfl

@[simp] theorem told_after (running : Bool) (replies : Replies)
    (result : Status) :
    (diary.after running replies result).told =
      (diary.begun running).told.map (· ++ replies) := by
  rw [Diary.after]
  split <;> rfl

@[simp] theorem fresh_after (running : Bool) (replies : Replies)
    (result : Status) :
    (diary.after running replies result).fresh = (diary.begun running).fresh := by
  rw [Diary.after]
  split <;> rfl

@[simp] theorem closed_after (running : Bool) (replies : Replies)
    (result : Status) :
    (diary.after running replies result).closed =
      if result = .running then (diary.begun running).closed else true := by
  rw [Diary.after]
  split <;> rfl

theorem forall_stints_after {law : Stint → Prop} {running : Bool}
    {replies : Replies} {result : Status}
    (lawful : ∀ stint ∈ diary.stints, law stint)
    (next : law { fresh := (diary.begun running).fresh
                  earlier := (diary.begun running).told, replies, result }) :
    ∀ stint ∈ (diary.after running replies result).stints, law stint := by
  intro stint member
  rw [stints_after] at member
  rcases List.mem_append.mp member with member | member
  · exact lawful stint member
  · rw [List.mem_singleton.mp member]
    exact next

end Diary

/-- The kind-dependent part of a state that is on the blackboard. -/
def Blackboard.Holds (board : Blackboard) (hash : NodeHash) (kind : KindState) :
    Prop :=
  ∃ state, board.states[hash]? = some state ∧ state.kind = kind

theorem Blackboard.Holds.kind_stateFor {board : Blackboard} {node : Node}
    {kind : KindState} (holds : board.Holds node.hash kind)
    (fits : kind.fits node.kind = true) (tree : Tree) :
    (board.stateFor tree node).kind = kind := by
  obtain ⟨state, present, rfl⟩ := holds
  rw [stateFor_eq tree present fits]

namespace Pass

/-- The kind-dependent part of the state when an update begins. -/
def begunKind (tree : Tree) (node : Node) (running : Bool) (kind : KindState) :
    KindState :=
  if running then kind
  else openedKind tree node (NodeState.syncKind kind node.kind)

/-- The kind-dependent part of the state after an update. -/
def endedKind (result : Status) (kind : KindState) : KindState :=
  if result = .running then kind else closedKind kind

variable {α : Type} {setting : Setting α} {home tree : Tree}
  {composite node : Node} {before middle after : Pass α} {status : Status}

/-- A stretch of a pass adds replies to the diary of a composite, and nothing
else. -/
def Tells (composite : Node) (replies : Replies) (before after : Pass α) :
    Prop :=
  ∃ growth, after.log = before.log ++ growth ∧
    ∀ diary : Diary, diary.read composite growth =
      { diary with replies := diary.replies ++ replies }

namespace Tells

variable {first second : Replies}

theorem of_log {growth : List Activity}
    (log : after.log = before.log ++ growth)
    (silent : ∀ diary : Diary, diary.read composite growth = diary) :
    Tells composite [] before after :=
  ⟨growth, log, fun diary => by rw [silent, List.append_nil]⟩

theorem of_same (same : after.log = before.log) :
    Tells composite [] before after :=
  .of_log (same.trans (List.append_nil _).symm) fun _ => rfl

theorem trans (earlier : Tells composite first before middle)
    (later : Tells composite second middle after) :
    Tells composite (first ++ second) before after := by
  obtain ⟨visited, log, tells⟩ := earlier
  obtain ⟨growth, laterLog, laterTells⟩ := later
  refine ⟨visited ++ growth, by rw [laterLog, log, List.append_assoc],
    fun diary => ?_⟩
  rw [Diary.read_append, tells, laterTells]
  simp

theorem after_silence {replies : Replies}
    (silent : Tells composite [] before middle)
    (tells : Tells composite replies middle after) :
    Tells composite replies before after :=
  silent.trans tells

theorem then_silence {replies : Replies}
    (tells : Tells composite replies before middle)
    (silent : Tells composite [] middle after) :
    Tells composite replies before after := by
  have told := tells.trans silent
  rwa [List.append_nil] at told

theorem of_aside (aside : Aside tree node before after) :
    Tells composite [] before after := by
  obtain ⟨remarks, log, areRemarks⟩ := aside.log
  refine .of_log log fun diary => ?_
  clear log
  induction remarks generalizing diary with
  | nil => rfl
  | cons activity rest induction =>
      have remark := areRemarks activity List.mem_cons_self
      have unchanged : diary.note composite activity = diary := by
        cases activity with
        | ran => rfl
        | misfit => rfl
        | _ => cases remark
      change (diary.note composite activity).read composite rest = diary
      rw [unchanged]
      exact induction (fun entry member =>
        areRemarks entry (List.mem_cons_of_mem _ member)) diary

theorem of_refuses (refuses : Refuses tree node before after) :
    Tells composite (composite.replyOf node.hash .error) before after := by
  refine ⟨_, refuses.log, fun diary => ?_⟩
  change (if node.hash ∈ composite.children then _ else diary) = _
  rw [Node.replyOf]
  split
  · rfl
  · rw [List.append_nil]

theorem of_enters (enters : Enters tree node before after)
    (different : node.hash ≠ composite.hash) :
    Tells composite [] before after := by
  refine .of_log enters.log fun diary => ?_
  split
  · rfl
  · exact if_neg different

theorem of_leaves (leaves : Leaves tree node status before after)
    (different : node.hash ≠ composite.hash) :
    Tells composite (composite.replyOf node.hash status) before after := by
  refine ⟨_, leaves.log, fun diary => ?_⟩
  have finished : diary.note composite (.finished (tree.refTo node) status) =
      { diary with
        replies := diary.replies ++ composite.replyOf node.hash status } := by
    refine (if_neg different).trans ?_
    change (if node.hash ∈ composite.children then _ else diary) = _
    rw [Node.replyOf]
    split
    · rfl
    · rw [List.append_nil]
  change Diary.read composite (diary.note composite _) _ = _
  rw [finished]
  split
  · rfl
  · exact if_neg different

theorem of_flow
    (flow : Flow setting (fun _ _ before _ after => Tells composite [] before after)
      tree node before after) : Tells composite [] before after := by
  induction flow with
  | start => exact .of_same rfl
  | aside _ aside induction => exact induction.trans (.of_aside aside)
  | child _ _ _ ticked induction => exact induction.trans ticked
  | jump _ _ _ _ ticked induction => exact induction.trans ticked

end Tells

/-- The tick of a child of a composite tells its reply, and leaves the state of
the composite alone. -/
structure Consults (composite : Node) (index : Nat) (status : Status)
    (before after : Pass α) : Prop where
  tells : Tells composite (composite.replyAt index status) before after
  kept : after.board.states[composite.hash]? =
    before.board.states[composite.hash]?
  missing : composite.children[index]? = none → status = .error

section Below

variable (wellFormed : setting.forest.WellFormed)
  (isScoped : setting.forest.Scoped)
  (composed : setting.forest.Located home composite)
  (apart : ∀ other, setting.forest.Leads (home.refTo composite) other →
    other.hash ≠ composite.hash)
include wellFormed isScoped composed apart

/-- The nodes to which a composite leads reply if they are children of it, and
do nothing else to its diary. -/
theorem tells_of_tick {fuel : Nat}
    (located : setting.forest.Located tree node)
    (leads : setting.forest.Leads (home.refTo composite) (tree.refTo node))
    (ended : PassM.tick setting fuel tree node before = some (status, after)) :
    Tells composite (composite.replyOf node.hash status) before after := by
  induction fuel generalizing tree node before after status with
  | zero => cases ended
  | succ fuel induction =>
      rcases PassM.tick_flow wellFormed located ended with
        ⟨rfl, refused⟩ | ⟨opened, body, enters, _, flow, leaves⟩
      · exact .of_refuses refused
      have different : node.hash ≠ composite.hash := apart _ leads
      have flowed : Tells composite [] opened body := by
        refine .of_flow (flow.mono ?_)
        intro next child _ reply _ ⟨found, follows, ticked, _⟩
        have tells := induction found (leads.tail follows) ticked
        rwa [Node.replyOf, if_neg (isScoped.notMem_children wellFormed composed
          located different found follows)] at tells
      exact ((Tells.of_enters enters different).after_silence flowed).after_silence
        (.of_leaves leaves different)

theorem consults_of_tickChild {fuel index : Nat}
    (plain : composite.kind.transitionTarget = none)
    (ended : PassM.tickChild (PassM.tick setting fuel) home composite index
      before = some (status, after)) :
    Consults composite index status before after := by
  rw [PassM.tickChild] at ended
  cases isChild : home.childAt composite index with
  | none =>
      rw [isChild] at ended
      cases ended
      have absent : composite.children[index]? = none := by
        by_contra listed
        have inRange : index < composite.children.length := by
          simpa using listed
        obtain ⟨child, found⟩ := wellFormed.exists_childAt composed inRange
        rw [found] at isChild
        cases isChild
      refine ⟨?_, rfl, fun _ => rfl⟩
      rw [Node.replyAt, absent]
      exact .of_same rfl
  | some child =>
      rw [isChild] at ended
      have located := wellFormed.located_childAt composed isChild
      have follows :=
        wellFormed.mem_childrenFollowing_childAt composed plain isChild
      have leads : setting.forest.Leads (home.refTo composite)
          (home.refTo child) := .single follows
      obtain ⟨hash, listed, registered⟩ := Option.bind_eq_some_iff.mp isChild
      have same : child.hash = hash :=
        (wellFormed.trees composed.inForest).keyed registered
      refine ⟨?_, ?_, fun absent => ?_⟩
      · have tells := tells_of_tick wellFormed isScoped composed apart located
          leads ended
        rw [Node.replyOf, same, if_pos (List.mem_of_getElem? listed)] at tells
        rw [Node.replyAt_eq listed]
        exact tells
      · exact PassM.states_of_tick wellFormed located
          (Ne.symm (apart _ leads))
          (fun other further => apart other (leads.trans further)) ended
      · rw [listed] at absent
        cases absent

end Below

section Writes

variable (pass : Pass α) {tree : Tree} {node : Node}

theorem stateFor_ensureState (tree : Tree) (node : Node) :
    (pass.ensureState tree node).2.board.stateFor tree node =
      pass.board.stateFor tree node := by
  have writes : Writes tree node [] (pass.board.stateFor tree node) pass
      (pass.ensureState tree node).2 := Writes.updateState pass id
  exact writes.stateFor (Blackboard.fits_stateFor _ _ _)

variable {pass}

theorem kind_updateKind {change : KindState → Option KindState}
    {kind : KindState}
    (changed : change (pass.board.stateFor tree node).kind = some kind)
    (fits : kind.fits node.kind = true) :
    ((pass.updateKind tree node change).board.stateFor tree node).kind = kind := by
  rw [Blackboard.stateFor_eq tree
    (states_updateKind pass tree node changed) fits]

theorem holds_ensureState (tree : Tree) (node : Node) :
    (pass.ensureState tree node).2.board.Holds node.hash
      (pass.board.stateFor tree node).kind :=
  ⟨_, (Writes.updateState pass id).here, rfl⟩

theorem Consults.holds {index : Nat} {kind : KindState}
    (consults : Consults composite index status before after)
    (holds : before.board.Holds composite.hash kind) :
    after.board.Holds composite.hash kind := by
  obtain ⟨state, present, isKind⟩ := holds
  exact ⟨state, consults.kept.trans present, isKind⟩

theorem Consults.stateFor {index : Nat}
    (consults : Consults composite index status before after) (home : Tree) :
    after.board.stateFor home composite = before.board.stateFor home composite :=
  Blackboard.stateFor_congr consults.kept

end Writes

section Ends

variable {past : Diary}

theorem Enters.stateFor (enters : Enters home composite before after) :
    (after.board.stateFor home composite).running =
        (before.board.stateFor home composite).running ∧
      (after.board.stateFor home composite).kind =
        begunKind home composite (before.board.stateFor home composite).running
          (before.board.stateFor home composite).kind := by
  obtain ⟨found, isFound, fits⟩ := Blackboard.fits_iff.mp enters.fits
  obtain ⟨state, present, running, kind⟩ := enters.here
  rw [present] at isFound
  cases isFound
  rw [Blackboard.stateFor_eq home present fits]
  exact ⟨running, kind⟩

theorem Leaves.stateFor (leaves : Leaves home composite status before after) :
    (after.board.stateFor home composite).running = decide (status = .running) ∧
      (after.board.stateFor home composite).kind =
        endedKind status (before.board.stateFor home composite).kind := by
  obtain ⟨found, isFound, fits⟩ := Blackboard.fits_iff.mp leaves.fits
  obtain ⟨state, present, running, kind⟩ := leaves.here
  rw [present] at isFound
  cases isFound
  rw [Blackboard.stateFor_eq home present fits]
  exact ⟨Bool.eq_iff_iff.mpr (running.trans decide_eq_true_iff.symm), kind⟩

theorem Enters.read (enters : Enters home composite before after) :
    past.read composite after.log =
      (past.read composite before.log).begun
        (before.board.stateFor home composite).running := by
  rw [enters.log, Diary.read_append, Diary.begun]
  split
  · rfl
  · exact if_pos rfl

theorem Leaves.read (leaves : Leaves home composite status before after) :
    past.read composite after.log =
      if status = .running then (past.read composite before.log).finish status
      else ((past.read composite before.log).finish status).closing := by
  have finished : ∀ diary : Diary,
      diary.note composite (.finished (home.refTo composite) status) =
        diary.finish status := fun _ => if_pos rfl
  rw [leaves.log, Diary.read_append, ← finished]
  split
  · rfl
  · exact if_pos rfl

theorem Tells.read {replies : Replies}
    (tells : Tells composite replies before after) :
    past.read composite after.log =
      { past.read composite before.log with
        replies := (past.read composite before.log).replies ++ replies } := by
  obtain ⟨growth, log, told⟩ := tells
  rw [log, Diary.read_append, told]

theorem Tells.read_silent (silent : Tells composite [] before after) :
    past.read composite after.log = past.read composite before.log := by
  rw [silent.read, List.append_nil]

end Ends

end Pass

/-- No update is under way, and `holds` of the diary, the running flag and the
kind-dependent part of the state. -/
structure Blackboard.Maintains (holds : Diary → Bool → KindState → Prop)
    (home : Tree) (composite : Node) (diary : Diary) (board : Blackboard) :
    Prop where
  quiet : diary.replies = []
  held : holds diary (board.stateFor home composite).running
    (board.stateFor home composite).kind

theorem Blackboard.Maintains.congr {holds : Diary → Bool → KindState → Prop}
    {home : Tree} {composite : Node} {diary : Diary} {before after : Blackboard}
    (maintains : before.Maintains holds home composite diary)
    (same : after.states[composite.hash]? = before.states[composite.hash]?) :
    after.Maintains holds home composite diary where
  quiet := maintains.quiet
  held := by
    rw [Blackboard.stateFor_congr same]
    exact maintains.held

/-- What an update does between its begin and its end: it moves the
kind-dependent part of the state and gets replies. -/
abbrev Conduct : Type := KindState → Replies → Status → KindState → Prop

/-- Updates and the ends of activations keep `holds`. -/
structure Discipline (home : Tree) (composite : Node) (conduct : Conduct)
    (holds : Diary → Bool → KindState → Prop) : Prop where
  update : ∀ {diary : Diary} {running : Bool} {kind changed : KindState}
    {replies : Replies} {result : Status},
    holds diary running kind →
    conduct (begunKind home composite running kind) replies result changed →
    changed.fits composite.kind = true →
    holds (diary.after running replies result) (result = .running)
      (endedKind result changed)
  close : ∀ {diary : Diary} {running : Bool} {kind : KindState},
    holds diary running kind → kind.fits composite.kind = true →
    holds diary.closing false (closedKind kind)

/-- Setups keep `holds`, and fresh states have it. -/
structure Refreshes (home : Tree) (composite : Node)
    (holds : Diary → Bool → KindState → Prop) : Prop where
  fresh : holds {} false (NodeState.initialKind home composite)
  stop : ∀ {diary : Diary} {running : Bool} {kind : KindState},
    holds diary running kind → kind.fits composite.kind = true →
    holds diary false kind
  sync : ∀ {diary : Diary} {kind : KindState}, holds diary false kind →
    kind.fits composite.kind = true →
    holds diary false (NodeState.syncKind kind composite.kind)

namespace Pass

variable {α : Type} {setting : Setting α} {home tree : Tree}
  {composite node : Node} {before after : Pass α} {status : Status}
  {conduct : Conduct} {holds : Diary → Bool → KindState → Prop} {past : Diary}

/-- The updates of a composite are part of the conduct. -/
def Obeys (setting : Setting α) (home : Tree) (composite : Node)
    (conduct : Conduct) : Prop :=
  ∀ {fuel : Nat} {result : Status} {opened body : Pass α},
    PassM.update setting fuel (PassM.tick setting fuel) home composite opened =
      some (result, body) →
    ∃ replies, Tells composite replies opened body ∧
      conduct (opened.board.stateFor home composite).kind replies result
        (body.board.stateFor home composite).kind

/-- What holds of a composite, after what is told of it in a pass. -/
def Maintains (holds : Diary → Bool → KindState → Prop) (home : Tree)
    (composite : Node) (past : Diary) (pass : Pass α) : Prop :=
  pass.board.Maintains holds home composite (past.read composite pass.log)

theorem Maintains.bypass (maintains : Maintains holds home composite past before)
    (silent : Tells composite [] before after)
    (kept : after.board.states[composite.hash]? =
      before.board.states[composite.hash]?) :
    Maintains holds home composite past after := by
  rw [Maintains, silent.read_silent]
  exact maintains.congr kept

theorem Maintains.of_flow
    (flow : Flow setting (fun _ _ before _ after =>
        Maintains holds home composite past before →
        Maintains holds home composite past after) tree node before after)
    (different : composite.hash ≠ node.hash)
    (maintains : Maintains holds home composite past before) :
    Maintains holds home composite past after := by
  induction flow with
  | start => exact maintains
  | aside _ aside induction =>
      exact induction.bypass (.of_aside aside) (aside.elsewhere different)
  | child _ _ _ ticked induction => exact ticked induction
  | jump _ _ _ _ ticked induction => exact ticked induction

/-- A whole update, from its begin to its end. -/
theorem Maintains.of_update (discipline : Discipline home composite conduct holds)
    {opened body : Pass α} {replies : Replies}
    (enters : Enters home composite before opened)
    (tells : Tells composite replies opened body)
    (moved : conduct (opened.board.stateFor home composite).kind replies status
      (body.board.stateFor home composite).kind)
    (leaves : Leaves home composite status body after)
    (maintains : Maintains holds home composite past before) :
    Maintains holds home composite past after := by
  have quiet := maintains.quiet
  rw [enters.stateFor.2] at moved
  have ended : past.read composite after.log =
      (past.read composite before.log).after
        (before.board.stateFor home composite).running replies status := by
    have silent : ((past.read composite before.log).begun
        (before.board.stateFor home composite).running).replies = [] := by
      rw [Diary.begun]
      split <;> exact quiet
    rw [leaves.read, tells.read, enters.read, silent, List.nil_append]
    rfl
  refine ⟨?_, ?_⟩
  · rw [ended, Diary.after]
    split <;> rfl
  · rw [ended, leaves.stateFor.1, leaves.stateFor.2]
    exact discipline.update maintains.held moved
      (body.board.fits_stateFor home composite)

section Whole

variable (wellFormed : setting.forest.WellFormed)
  (isScoped : setting.forest.Scoped)
  (composed : setting.forest.Located home composite)
  (obeys : Obeys setting home composite conduct)
  (discipline : Discipline home composite conduct holds)
include wellFormed isScoped composed obeys discipline

/-- What the updates of a composite maintain, every tick does. -/
theorem maintains_of_tick {fuel : Nat}
    (located : setting.forest.Located tree node)
    (noChild : node.hash ∉ composite.children)
    (ended : PassM.tick setting fuel tree node before = some (status, after))
    (maintains : Maintains holds home composite past before) :
    Maintains holds home composite past after := by
  -- Children of the composite are ticked within its updates, for which the
  -- conduct accounts, so the induction is on the ticks of all other nodes.
  induction fuel generalizing tree node before after status with
  | zero => cases ended
  | succ fuel induction =>
      rcases PassM.tick_flow wellFormed located ended with
        ⟨_, refused⟩ | ⟨opened, body, enters, updated, flow, leaves⟩
      · have silent : Tells composite [] before after := by
          have tells : Tells composite (composite.replyOf node.hash .error)
              before after := .of_refuses refused
          rwa [Node.replyOf, if_neg noChild] at tells
        exact maintains.bypass silent (by rw [refused.states])
      by_cases same : node.hash = composite.hash
      · obtain ⟨rfl, rfl⟩ := isScoped.unique composed located same
        obtain ⟨replies, tells, moved⟩ := obeys updated
        exact maintains.of_update discipline enters tells moved leaves
      have entered := maintains.bypass (.of_enters enters same)
        (enters.elsewhere (Ne.symm same))
      have flowed : Maintains holds home composite past body := by
        refine Maintains.of_flow (flow.mono ?_) (Ne.symm same) entered
        intro next child _ _ _ ⟨found, follows, ticked, _⟩
        exact induction found (isScoped.notMem_children wellFormed composed
          located same found follows) ticked
      have silent : Tells composite [] body after := by
        have tells : Tells composite (composite.replyOf node.hash status)
            body after := .of_leaves leaves same
        rwa [Node.replyOf, if_neg noChild] at tells
      exact flowed.bypass silent (leaves.elsewhere (Ne.symm same))

omit wellFormed obeys in
/-- What the end of an activation maintains, abandoning nodes does. -/
theorem maintains_of_abandonNode
    (located : setting.forest.Located tree node)
    (config : HandlerConfig)
    (maintains : Maintains holds home composite past before) :
    Maintains holds home composite past (before.abandonNode config tree node) := by
  have writes := before.writes_abandonNode config tree node
  by_cases same : node.hash = composite.hash
  · obtain ⟨rfl, rfl⟩ := isScoped.unique composed located same
    have read : past.read node (before.abandonNode config tree node).log =
        (past.read node before.log).closing := by
      rw [writes.log, Diary.read_append]
      exact if_pos rfl
    have fits := before.board.fits_stateFor tree node
    rw [Maintains, read]
    refine ⟨maintains.quiet, ?_⟩
    rw [writes.stateFor (fits_closedKind fits)]
    exact discipline.close maintains.held fits
  · refine maintains.bypass ?_ (writes.elsewhere (Ne.symm same))
    refine .of_log writes.log fun diary => ?_
    exact if_neg same

end Whole

end Pass

end BehaviorTree
