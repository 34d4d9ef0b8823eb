import BehaviorTree.Proofs.NodeState
import BehaviorTree.Proofs.Pass.Checking
import BehaviorTree.Proofs.Pass.Ranging

/-!
# Uses of a Limiter

A Limiter keeps its limit and the uses that are left, but not how many it has
spent.  A refresh under a higher limit works that number out from the old limit,
which is right as long as that limit covers it.  A tab keeps count from outside,
by the journals of passes.  While each limit that was raised covered the uses so
far, the state of the Limiter agrees with the tab.
-/

namespace BehaviorTree

open BehaviorTree.Pass

/-- An account of a Limiter since its state was created. -/
structure Tab where
  /-- The limit at the latest refresh; none before the first one. -/
  limit : Option Nat := none
  /-- The ticks of the child so far. -/
  uses : Nat := 0
  /-- Every limit that a refresh raised covered the uses until then. -/
  covered : Bool := true
deriving DecidableEq

namespace Tab

def refresh (tab : Tab) (limit : Nat) : Tab :=
  { tab with
    limit := some limit
    covered := tab.covered &&
      tab.limit.all fun old => limit ≤ old || tab.uses ≤ old }

def spend (tab : Tab) : Tab := { tab with uses := tab.uses + 1 }

/-- The limit and the uses that should be left of it. -/
def due (tab : Tab) : Option (Nat × Nat) :=
  tab.limit.map fun limit => (limit, limit - tab.uses)

end Tab

/-- The limit of a Limiter and the uses left. -/
def KindState.allowance : KindState → Option (Nat × Nat)
  | .limiter limit remaining => some (limit.toNat, remaining.toNat)
  | _ => none

/-- The state of a node apart from what all nodes have. -/
def Blackboard.kindAt (board : Blackboard) (hash : NodeHash) : Option KindState :=
  board.states[hash]?.map (·.kind)

/-- What the state of a Limiter has left. -/
def Blackboard.allowance (board : Blackboard) (hash : NodeHash) :
    Option (Nat × Nat) :=
  (board.kindAt hash).bind KindState.allowance

namespace Tab

/-- The state of the Limiter has left what is due by the tab, as far as the tab
knows. -/
def Agrees (tab : Tab) (found : Option KindState) : Prop :=
  tab.covered = true → found.bind KindState.allowance = tab.due ∧
    (tab.limit = none → found = none ∧ tab.uses = 0)

/-- There was a refresh, as far as the tab knows. -/
def Begun (tab : Tab) : Prop := tab.covered = true → tab.limit.isSome

/-- The next use is within the limit, as far as the tab knows. -/
def allows (tab : Tab) : Bool :=
  !tab.covered || tab.limit.any (tab.uses < ·)

variable {tab : Tab} {limit remaining : UInt32}

theorem Agrees.begun {state : KindState} (agrees : tab.Agrees (some state)) :
    tab.Begun := by
  intro covered
  rw [Option.isSome_iff_ne_none]
  intro unlimited
  cases ((agrees covered).2 unlimited).1

theorem Agrees.of_due (limited : tab.limit.isSome)
    (due : tab.due = some (limit.toNat, remaining.toNat)) :
    tab.Agrees (some (.limiter limit remaining)) := by
  refine fun _ => ⟨due.symm, fun unlimited => ?_⟩
  rw [unlimited] at limited
  cases limited

theorem Agrees.known (agrees : tab.Agrees (some (.limiter limit remaining)))
    (covered : tab.covered = true) :
    tab.limit = some limit.toNat ∧
      remaining.toNat = limit.toNat - tab.uses := by
  obtain ⟨old, isOld, same⟩ := Option.map_eq_some_iff.mp (agrees covered).1.symm
  obtain ⟨rfl, left⟩ := Prod.mk.inj same
  exact ⟨isOld, left.symm⟩

/-- While uses are left, the next one is within the limit and leaves one less. -/
theorem Agrees.spend (agrees : tab.Agrees (some (.limiter limit remaining)))
    (left : remaining ≠ 0) :
    tab.spend.Agrees (some (.limiter limit (remaining - 1))) ∧
      tab.allows = true := by
  have positive : remaining.toNat ≠ 0 :=
    fun none => left (UInt32.toNat_inj.mp none)
  have oneLess : (remaining - 1).toNat = remaining.toNat - 1 := by
    apply UInt32.toNat_sub_of_le
    rw [UInt32.le_iff_toNat_le]
    exact Nat.one_le_iff_ne_zero.mpr positive
  rw [allows, Bool.or_eq_true, Bool.not_eq_true']
  cases covered : tab.covered with
  | false =>
      refine ⟨fun isCovered => ?_, .inl rfl⟩
      rw [Tab.spend, covered] at isCovered
      cases isCovered
  | true =>
      obtain ⟨isLimit, leaves⟩ := agrees.known covered
      constructor
      · apply Agrees.of_due
        · rw [Tab.spend, isLimit]
          rfl
        · have oneMore : limit.toNat - (tab.uses + 1) = remaining.toNat - 1 := by
            omega
          rw [due, Tab.spend, isLimit, Option.map_some, oneMore, oneLess]
      · right
        rw [isLimit, Option.any_some, decide_eq_true_eq]
        omega

/-- A refresh under another limit finds the uses that are left, if the old limit
covered those that were spent or was not raised. -/
theorem Agrees.refresh (agrees : tab.Agrees (some (.limiter limit remaining)))
    (configured : UInt32) :
    (tab.refresh configured.toNat).Agrees
      (some (NodeState.syncKind (.limiter limit remaining)
        (.limiter configured))) := by
  intro covered
  obtain ⟨wasCovered, enough⟩ := Bool.and_eq_true_iff.mp covered
  obtain ⟨isLimit, left⟩ := agrees.known wasCovered
  rw [isLimit, Option.all_some, Bool.or_eq_true, decide_eq_true_eq,
    decide_eq_true_eq] at enough
  rw [NodeState.syncKind_limiter]
  refine ⟨congrArg some (Prod.ext rfl ?_), nofun⟩
  simp only [Tab.refresh]
  split
  · next unchanged => rw [← unchanged, left]
  · rw [NodeState.toNat_saturatingSub, NodeState.toNat_saturatingSub]
    omega

theorem Agrees.create (agrees : tab.Agrees none) (configured : UInt32) :
    (tab.refresh configured.toNat).Agrees
      (some (.limiter configured configured)) := by
  intro covered
  obtain ⟨wasCovered, _⟩ := Bool.and_eq_true_iff.mp covered
  obtain ⟨nothing, unused⟩ := agrees wasCovered
  have unlimited : tab.limit = none := Option.map_eq_none_iff.mp nothing.symm
  rw [due, Tab.refresh, (unused unlimited).2]
  exact ⟨rfl, nofun⟩

end Tab

namespace Blackboard

variable {board other : Blackboard} {hash : NodeHash} {node : Node}
  {configured : UInt32} {state : NodeState}

theorem kindAt_congr (same : other.states[hash]? = board.states[hash]?) :
    other.kindAt hash = board.kindAt hash := by
  rw [kindAt, kindAt, same]

theorem kindAt_eq (present : board.states[hash]? = some state) :
    board.kindAt hash = some state.kind := by
  rw [kindAt, present, Option.map_some]

theorem exists_limiter_stateFor (board : Blackboard) (tree : Tree)
    (isLimiter : node.kind = .limiter configured) :
    ∃ limit remaining,
      (board.stateFor tree node).kind = .limiter limit remaining := by
  have fits := board.fits_stateFor tree node
  rw [isLimiter, KindState.fits, decide_eq_true_eq] at fits
  cases kind : (board.stateFor tree node).kind with
  | limiter limit remaining => exact ⟨limit, remaining, rfl⟩
  | _ =>
      rw [kind] at fits
      cases fits

theorem closedKind_stateFor (board : Blackboard) (tree : Tree)
    (isLimiter : node.kind = .limiter configured) :
    closedKind (board.stateFor tree node).kind =
      (board.stateFor tree node).kind := by
  obtain ⟨limit, remaining, kind⟩ := board.exists_limiter_stateFor tree isLimiter
  rw [kind]
  rfl

theorem forNode_of_kindAt (tree : Tree) (absent : board.kindAt node.hash = none) :
    board.stateFor tree node = .forNode tree node := by
  apply stateFor_of_misfit
  intro state present
  rw [kindAt, Option.map_eq_none_iff] at absent
  rw [absent] at present
  cases present

variable {tab : Tab} (agrees : tab.Agrees (board.kindAt node.hash))
  (isLimiter : node.kind = .limiter configured)
include agrees isLimiter

/-- A Limiter goes on with the state that the tab knows of. -/
theorem agrees_stateFor (tree : Tree)
    (known : tab.covered = true → board.kindAt node.hash ≠ none) :
    tab.Agrees (some (board.stateFor tree node).kind) := by
  intro covered
  obtain ⟨same, unlimited⟩ := agrees covered
  obtain ⟨limit, isLimit⟩ := Option.ne_none_iff_exists'.mp
    fun isNone => known covered (unlimited isNone).1
  rw [Tab.due, isLimit] at same
  obtain ⟨kind, found, isAllowance⟩ := Option.bind_eq_some_iff.mp same
  obtain ⟨state, present, rfl⟩ := Option.map_eq_some_iff.mp found
  have fits : state.kind.fits node.kind = true := by
    rw [isLimiter]
    cases kind : state.kind with
    | limiter limit remaining => rfl
    | _ =>
        rw [kind] at isAllowance
        cases isAllowance
  rw [stateFor_eq tree present fits, ← found]
  exact agrees covered

/-- A refresh finds the uses that are left, or starts with all. -/
theorem agrees_syncKind (tree : Tree) :
    (tab.refresh configured.toNat).Agrees
      (some (NodeState.syncKind (board.stateFor tree node).kind node.kind)) := by
  by_cases absent : board.kindAt node.hash = none
  · rw [absent] at agrees
    have synced : NodeState.syncKind (board.stateFor tree node).kind node.kind =
        .limiter configured configured := by
      rw [forNode_of_kindAt tree absent]
      simp [NodeState.forNode, NodeState.initialKind, NodeState.syncKind,
        isLimiter]
    rw [synced]
    exact agrees.create configured
  · have agreed := agrees_stateFor agrees isLimiter tree fun _ => absent
    obtain ⟨limit, remaining, kind⟩ :=
      board.exists_limiter_stateFor tree isLimiter
    rw [kind] at agreed ⊢
    rw [isLimiter]
    exact agreed.refresh configured

end Blackboard

/-- A Limiter with uses left takes one and ticks its child. -/
theorem PassM.limiter_of_kind {α : Type} (visit : PassM.Visit α) {tree : Tree}
    {node child : Node} {pass : Pass α} {limit remaining : UInt32}
    (isChild : tree.childAt node 0 = some child)
    (kind : (pass.board.stateFor tree node).kind = .limiter limit remaining) :
    limiter visit tree node pass =
      if remaining = 0 then some (.failure, (pass.ensureState tree node).2)
      else visit tree child
        ((pass.ensureState tree node).2.updateState tree node
          fun state => { state with kind := .limiter limit (remaining - 1) }) := by
  have isKind : (pass.ensureState tree node).1.kind = .limiter limit remaining :=
    kind
  rw [limiter, modifyGet_bind, isKind]
  by_cases exhausted : remaining = 0
  · simp only [if_pos exhausted]
    rfl
  · simp only [if_neg exhausted, modify_bind, delegate, isChild]
    exact congrFun (bind_pure (visit tree child)) _

/-- A Limiter and its child, and the limit that is configured. -/
structure Gate where
  limiter : NodeRef
  child : NodeRef
  limit : Nat

namespace Gate

variable (gate : Gate)

/-- The tab after an entry: opening the Limiter refreshes its state, and a tick
of the child is a use, be it within the step budget or beyond it. -/
def note (tab : Tab) : Activity → Tab
  | .opened ref => if ref = gate.limiter then tab.refresh gate.limit else tab
  | .entered ref => if ref = gate.child then tab.spend else tab
  | .refused ref => if ref = gate.child then tab.spend else tab
  | _ => tab

def read (tab : Tab) (log : List Activity) : Tab := log.foldl gate.note tab

theorem read_append (tab : Tab) (first second : List Activity) :
    gate.read tab (first ++ second) = gate.read (gate.read tab first) second :=
  List.foldl_append

theorem read_of_quiet {log : List Activity} (tab : Tab)
    (quiet : ∀ activity ∈ log, ∀ tab, gate.note tab activity = tab) :
    gate.read tab log = tab := by
  induction log with
  | nil => rfl
  | cons activity rest induction =>
      have heads := quiet activity List.mem_cons_self tab
      rw [read, List.foldl_cons, heads]
      exact induction fun other member =>
        quiet other (List.mem_cons_of_mem _ member)

/-- Once there was a refresh, there is a limit. -/
theorem begun_read {tab : Tab} (begun : tab.Begun) (log : List Activity) :
    (gate.read tab log).Begun := by
  induction log generalizing tab with
  | nil => exact begun
  | cons activity rest induction =>
      apply induction
      cases activity with
      | opened ref =>
          rw [note]
          split
          · exact fun _ => rfl
          · exact begun
      | entered ref =>
          rw [note]
          split
          · exact begun
          · exact begun
      | refused ref =>
          rw [note]
          split
          · exact begun
          · exact begun
      | _ => exact begun

variable {α : Type}

/-- The tab in a pass that began with the given one. -/
def tabAt (tab : Tab) (pass : Pass α) : Tab := gate.read tab pass.log

/-- The state of the Limiter agrees with the tab. -/
def Settled (tab : Tab) (pass : Pass α) : Prop :=
  (gate.tabAt tab pass).Agrees (pass.board.kindAt gate.limiter.hash)

/-- The state of the Limiter counts one use more than the tab, and the limit
covers it. -/
def Delegates (tab : Tab) (pass : Pass α) : Prop :=
  (gate.tabAt tab pass).spend.Agrees
      (pass.board.kindAt gate.limiter.hash) ∧
    (gate.tabAt tab pass).allows = true

/-- What holds when a node is to be ticked: the child is ticked by its Limiter
only. -/
def Ready (tab : Tab) (tree : Tree) (node : Node) (pass : Pass α) : Prop :=
  if tree.refTo node = gate.child then gate.Delegates tab pass
  else gate.Settled tab pass

/-- What a use and an opening of the Limiter have to comply with, as far as the
tab knows: the use is within the limit of the latest refresh, and the opening
leaves of the configured limit what was not yet spent. -/
def lawful (tab : Tab) (setting : Setting α) (tree : Tree) (node : Node)
    (pass : Pass α) : Bool :=
  let now := gate.tabAt tab pass
  let ref := tree.refTo node
  if ref = gate.child then now.allows
  else if ref = gate.limiter ∧ (pass.board.stateFor tree node).running = false then
    let opened := PassM.enter setting tree node (pass.accept ref)
    !(now.refresh gate.limit).covered ||
      opened.board.allowance gate.limiter.hash =
        some (gate.limit, gate.limit - now.uses)
  else true

/-- The Limiter and its first child are registered, and the limit is that of the
Limiter's kind. -/
structure Stands (gate : Gate) (forest : Forest) (home : Tree)
    (limiter child : Node) : Prop where
  located : forest.Located home limiter
  ref : home.refTo limiter = gate.limiter
  kind : ∃ configured, limiter.kind = .limiter configured ∧
    configured.toNat = gate.limit
  isChild : home.childAt limiter 0 = some child
  childRef : home.refTo child = gate.child

namespace Stands

variable {gate : Gate} {forest : Forest} {home : Tree} {limiter child : Node}
  (stands : gate.Stands forest home limiter child)
  (wellFormed : forest.WellFormed)
include stands wellFormed

theorem locatedChild : forest.Located home child :=
  wellFormed.located_childAt stands.located stands.isChild

theorem child_ne : gate.child ≠ gate.limiter := by
  intro same
  rw [← stands.childRef, ← stands.ref] at same
  have sameHash : child.hash = limiter.hash := congrArg NodeRef.hash same
  have above := wellFormed.parentOf_childAt stands.located stands.isChild
  apply (wellFormed.trees stands.located.inForest).not_within_child above
  rw [sameHash]
  exact .top

theorem root_ne {id : TreeId} {tree : Tree}
    (registered : forest.get? id = some tree) :
    tree.refTo tree.rootNode ≠ gate.child := by
  intro same
  have above := wellFormed.parentOf_childAt stands.located stands.isChild
  rw [← stands.childRef] at same
  obtain ⟨rfl, rfl⟩ := (wellFormed.located_root registered).eq_of_ref
    (stands.locatedChild wellFormed) same
  rw [wellFormed.hash_rootNode registered,
    (wellFormed.trees registered).parentOf_root] at above
  cases above

variable {setting : Setting α} {tree : Tree} {node : Node}

omit wellFormed in
theorem sameHash : gate.limiter.hash = limiter.hash :=
  congrArg NodeRef.hash stands.ref.symm

omit wellFormed in
theorem eq_of_ref (located : forest.Located tree node)
    (same : tree.refTo node = gate.limiter) : tree = home ∧ node = limiter :=
  located.eq_of_ref stands.located (same.trans stands.ref.symm)

omit wellFormed in
theorem hash_ne (isScoped : forest.Scoped) (located : forest.Located tree node)
    (different : tree.refTo node ≠ gate.limiter) :
    gate.limiter.hash ≠ node.hash := by
  intro same
  rw [← stands.ref] at same different
  obtain ⟨rfl, rfl⟩ := isScoped.unique stands.located located same.symm
  exact different rfl

end Stands

/-- Only its Limiter ticks the child. -/
theorem Stands.ref_of_way {gate : Gate} {setting : Setting α} {home tree : Tree}
    {limiter child node : Node}
    (stands : gate.Stands setting.forest home limiter child)
    (wellFormed : setting.forest.WellFormed)
    (located : setting.forest.Located tree node) {pass start : Pass α}
    {next : Tree} {found : Node} {back : Pass α → Pass α}
    (way : Way setting tree node pass next found start back)
    (same : next.refTo found = gate.child) : tree.refTo node = gate.limiter := by
  cases way with
  | child plain isFound =>
      have above := wellFormed.parentOf_childAt stands.located stands.isChild
      rw [← stands.childRef] at same
      obtain ⟨rfl, rfl⟩ := (wellFormed.located_childAt located isFound).eq_of_ref
        (stands.locatedChild wellFormed) same
      have parent := wellFormed.parentOf_childAt located isFound
      rw [above] at parent
      rw [← stands.ref, Tree.refTo, Tree.refTo, Option.some.inj parent]
  | jump jumps selected =>
      obtain ⟨id, _, registered⟩ := Option.bind_eq_some_iff.mp selected
      exact absurd same (stands.root_ne wellFormed registered)

section Steps

variable {gate : Gate} {tab : Tab} {tree : Tree} {node : Node}
  {before after : Pass α}

theorem tabAt_of_log {growth : List Activity}
    (log : after.log = before.log ++ growth) :
    gate.tabAt tab after = gate.read (gate.tabAt tab before) growth := by
  rw [tabAt, log, read_append]
  rfl

theorem Settled.congr (settled : gate.Settled tab before)
    (sameTab : gate.tabAt tab after = gate.tabAt tab before)
    (untouched : after.board.states[gate.limiter.hash]? =
      before.board.states[gate.limiter.hash]?) : gate.Settled tab after := by
  rw [Settled, sameTab, Blackboard.kindAt_congr untouched]
  exact settled

theorem Settled.of_same (settled : gate.Settled tab before)
    (board : after.board = before.board) (log : after.log = before.log) :
    gate.Settled tab after :=
  settled.congr (by rw [tabAt, log, tabAt]) (by rw [board])

theorem tabAt_aside (aside : Aside tree node before after) :
    gate.tabAt tab after = gate.tabAt tab before := by
  obtain ⟨remarks, log, areRemarks⟩ := aside.log
  rw [tabAt_of_log log]
  apply gate.read_of_quiet
  intro activity member tab
  have remark := areRemarks activity member
  cases activity with
  | ran => rfl
  | misfit => rfl
  | _ => cases remark

theorem Settled.aside (settled : gate.Settled tab before)
    (aside : Aside tree node before after)
    (different : gate.limiter.hash ≠ node.hash) : gate.Settled tab after :=
  settled.congr (tabAt_aside aside) (aside.elsewhere different)

theorem tabAt_leaves {status : Status}
    (leaves : Leaves tree node status before after) :
    gate.tabAt tab after = gate.tabAt tab before := by
  rw [tabAt_of_log leaves.log]
  split
  · rfl
  · rfl

/-- A tick beyond the step budget is a use if it is that of the child. -/
theorem Ready.refuses (ready : gate.Ready tab tree node before)
    (refuses : Refuses tree node before after) : gate.Settled tab after := by
  have counted : gate.tabAt tab after = gate.read (gate.tabAt tab before) _ :=
    tabAt_of_log refuses.log
  have same : after.board.kindAt gate.limiter.hash =
      before.board.kindAt gate.limiter.hash :=
    Blackboard.kindAt_congr (by rw [refuses.states])
  rw [Settled, counted, same]
  by_cases isChild : tree.refTo node = gate.child
  · rw [Ready, if_pos isChild] at ready
    rw [isChild]
    change Tab.Agrees (if gate.child = gate.child then _ else _) _
    rw [if_pos rfl]
    exact ready.1
  · rw [Ready, if_neg isChild] at ready
    change Tab.Agrees (if tree.refTo node = gate.child then _ else _) _
    rw [if_neg isChild]
    exact ready

/-- So is a tick within the budget; what it opens is not the Limiter. -/
theorem Ready.enters (ready : gate.Ready tab tree node before)
    (enters : Enters tree node before after)
    (different : gate.limiter.hash ≠ node.hash) : gate.Settled tab after := by
  have others : tree.refTo node ≠ gate.limiter :=
    fun same => different (congrArg NodeRef.hash same).symm
  have counted : gate.tabAt tab after =
      gate.note (gate.tabAt tab before) (.entered (tree.refTo node)) := by
    rw [tabAt_of_log enters.log]
    split
    · rfl
    · change (if tree.refTo node = gate.limiter then _ else _) = _
      rw [if_neg others]
  have same : after.board.kindAt gate.limiter.hash =
      before.board.kindAt gate.limiter.hash :=
    Blackboard.kindAt_congr (enters.elsewhere different)
  rw [Settled, counted, same, note]
  by_cases isChild : tree.refTo node = gate.child
  · rw [Ready, if_pos isChild] at ready
    rw [if_pos isChild]
    exact ready.1
  · rw [Ready, if_neg isChild] at ready
    rw [if_neg isChild]
    exact ready

end Steps

section Limiter

variable {gate : Gate} {setting : Setting α} {tab : Tab} {home : Tree}
  {limiter child : Node} {before opened body after : Pass α} {status : Status}
  (stands : gate.Stands setting.forest home limiter child)
include stands

/-- Entering the Limiter refreshes its state if it is opened, and leaves it alone
if it is running. -/
theorem Settled.enters_limiter (settled : gate.Settled tab before)
    (wellFormed : setting.forest.WellFormed)
    (enters : Enters home limiter before opened) :
    gate.Settled tab opened ∧
    ((before.board.stateFor home limiter).running = false →
      gate.tabAt tab opened = (gate.tabAt tab before).refresh gate.limit) ∧
    ∃ state, opened.board.states[limiter.hash]? = some state := by
  obtain ⟨configured, isLimiter, isLimit⟩ := stands.kind
  have notChild : gate.limiter ≠ gate.child := Ne.symm (stands.child_ne wellFormed)
  have logged : gate.tabAt tab opened = gate.read (gate.tabAt tab before) _ :=
    tabAt_of_log enters.log
  obtain ⟨state, present, running, kind⟩ := enters.here
  rw [Settled, stands.sameHash] at settled ⊢
  rw [Blackboard.kindAt_eq present, kind]
  cases wasRunning : (before.board.stateFor home limiter).running with
  | true =>
      rw [if_pos wasRunning] at logged
      have unread : gate.tabAt tab opened = gate.tabAt tab before := by
        rw [logged, stands.ref]
        exact if_neg notChild
      refine ⟨?_, nofun, state, present⟩
      rw [unread, if_pos rfl]
      apply Blackboard.agrees_stateFor settled isLimiter home
      intro _ absent
      rw [Blackboard.forNode_of_kindAt home absent] at wasRunning
      cases wasRunning
  | false =>
      rw [wasRunning, if_neg Bool.false_ne_true] at logged
      have refreshed : gate.tabAt tab opened =
          (gate.tabAt tab before).refresh gate.limit := by
        rw [logged, stands.ref]
        change (if gate.limiter = gate.limiter then
          (if gate.limiter = gate.child then _ else _ : Tab).refresh _ else _) = _
        rw [if_pos rfl, if_neg notChild]
      refine ⟨?_, fun _ => refreshed, state, present⟩
      have synced := Blackboard.agrees_syncKind settled isLimiter home
      obtain ⟨limit, remaining, isKind⟩ :=
        before.board.exists_limiter_stateFor home isLimiter
      rw [refreshed, if_neg Bool.false_ne_true, ← isLimit]
      rw [isKind, isLimiter, NodeState.syncKind_limiter] at synced ⊢
      exact synced

/-- Leaving the Limiter does not touch what it has left. -/
theorem Settled.leaves_limiter (settled : gate.Settled tab body)
    (begun : (gate.tabAt tab body).Begun)
    (leaves : Leaves home limiter status body after) :
    gate.Settled tab after := by
  obtain ⟨configured, isLimiter, _⟩ := stands.kind
  obtain ⟨state, present, _, kind⟩ := leaves.here
  have kept : state.kind = (body.board.stateFor home limiter).kind := by
    rw [kind, Blackboard.closedKind_stateFor body.board home isLimiter]
    exact ite_self _
  rw [Settled, stands.sameHash] at settled ⊢
  rw [tabAt_leaves leaves, Blackboard.kindAt_eq present, kept]
  apply Blackboard.agrees_stateFor settled isLimiter home
  intro covered absent
  obtain ⟨same, _⟩ := settled covered
  rw [absent] at same
  have limited := begun covered
  rw [Option.map_eq_none_iff.mp same.symm] at limited
  cases limited

/-- The update of a Limiter, with what it knows when it ticks its child. -/
theorem Settled.agree_limiter {visit other : PassM.Visit α} {state : NodeState}
    (settled : gate.Settled tab opened)
    (present : opened.board.states[limiter.hash]? = some state)
    (ticks : ∀ {start after : Pass α} {status : Status},
      gate.Delegates tab start →
      visit home child start = some (status, after) →
      other home child start = some (status, after) ∧ gate.Settled tab after ∧
        ∃ growth, after.log = start.log ++ growth)
    (ended : PassM.limiter visit home limiter opened = some (status, body)) :
    PassM.limiter other home limiter opened = some (status, body) ∧
      gate.Settled tab body ∧ (gate.tabAt tab body).Begun := by
  obtain ⟨configured, isLimiter, _⟩ := stands.kind
  obtain ⟨limit, remaining, kind⟩ :=
    opened.board.exists_limiter_stateFor home isLimiter
  rw [Settled, stands.sameHash] at settled
  have agrees := Blackboard.agrees_stateFor settled isLimiter home fun _ => by
    rw [Blackboard.kindAt_eq present]
    exact Option.some_ne_none _
  rw [kind] at agrees
  have ensures : Writes home limiter [] (opened.board.stateFor home limiter)
      opened (opened.ensureState home limiter).2 :=
    Writes.updateState opened id
  rw [PassM.limiter_of_kind _ stands.isChild kind] at ended ⊢
  by_cases exhausted : remaining = 0
  · rw [if_pos exhausted] at ended ⊢
    obtain ⟨-, rfl⟩ := Prod.mk.inj (Option.some.inj ended)
    have sameTab : gate.tabAt tab _ = gate.tabAt tab opened :=
      tabAt_of_log ensures.log
    refine ⟨ended, ?_, ?_⟩
    · rw [Settled, stands.sameHash, sameTab, Blackboard.kindAt_eq ensures.here,
        kind]
      exact agrees
    · rw [sameTab]
      exact agrees.begun
  · rw [if_neg exhausted] at ended ⊢
    have spends := ensures.trans (Writes.updateState _ fun state =>
      { state with kind := .limiter limit (remaining - 1) })
    have sameTab : gate.tabAt tab _ = gate.tabAt tab opened :=
      tabAt_of_log spends.log
    obtain ⟨agreed, allowed⟩ := agrees.spend exhausted
    have delegates : gate.Delegates tab
        ((opened.ensureState home limiter).2.updateState home limiter
          fun state => { state with kind := .limiter limit (remaining - 1) }) := by
      rw [Delegates, stands.sameHash, sameTab, Blackboard.kindAt_eq spends.here]
      exact ⟨agreed, allowed⟩
    obtain ⟨checked, settled, growth, log⟩ := ticks delegates ended
    refine ⟨checked, settled, ?_⟩
    rw [tabAt_of_log log, sameTab]
    exact gate.begun_read agrees.begun growth

/-- A tick of the Limiter, with what it knows when it ticks its child. -/
theorem Settled.visit_limiter {visit other : PassM.Visit α}
    (settled : gate.Settled tab before)
    (wellFormed : setting.forest.WellFormed)
    (enters : Enters home limiter before opened)
    (ticks : ∀ {start after : Pass α} {status : Status},
      gate.Delegates tab start →
      visit home child start = some (status, after) →
      other home child start = some (status, after) ∧ gate.Settled tab after ∧
        ∃ growth, after.log = start.log ++ growth)
    (updated : PassM.limiter visit home limiter opened = some (status, body))
    (leaves : Leaves home limiter status body after) :
    PassM.limiter other home limiter opened = some (status, body) ∧
      gate.Settled tab after := by
  obtain ⟨settled, _, state, present⟩ :=
    settled.enters_limiter stands wellFormed enters
  obtain ⟨agrees, settled, begun⟩ :=
    settled.agree_limiter stands present ticks updated
  exact ⟨agrees, settled.leaves_limiter stands begun leaves⟩

/-- Abandoning the Limiter does not touch what it has left, and abandoning
others does not touch the Limiter. -/
theorem Settled.abandonNode (settled : gate.Settled tab before)
    (isScoped : setting.forest.Scoped) {tree : Tree} {node : Node}
    (located : setting.forest.Located tree node)
    (running : before.board.isRunning node.hash = true)
    (config : HandlerConfig) :
    gate.Settled tab (before.abandonNode config tree node) := by
  obtain ⟨configured, isLimiter, _⟩ := stands.kind
  have writes := before.writes_abandonNode config tree node
  have sameTab : gate.tabAt tab _ = gate.tabAt tab before :=
    tabAt_of_log writes.log
  by_cases isRef : tree.refTo node = gate.limiter
  · obtain ⟨rfl, rfl⟩ := stands.eq_of_ref located isRef
    rw [Settled, stands.sameHash] at settled ⊢
    rw [sameTab, Blackboard.kindAt_eq writes.here,
      Blackboard.closedKind_stateFor before.board tree isLimiter]
    apply Blackboard.agrees_stateFor settled isLimiter tree
    intro _ absent
    rw [Blackboard.kindAt, Option.map_eq_none_iff] at absent
    rw [Blackboard.isRunning, absent] at running
    cases running
  · exact settled.congr sameTab
      (writes.elsewhere (stands.hash_ne isScoped located isRef))

/-- A node is ticked in a lawful pass if the Limiter and its child are ready. -/
theorem Ready.lawful {tree : Tree} {node : Node}
    (ready : gate.Ready tab tree node before)
    (wellFormed : setting.forest.WellFormed)
    (located : setting.forest.Located tree node) :
    gate.lawful tab setting tree node before = true := by
  rw [Gate.lawful]
  by_cases isChild : tree.refTo node = gate.child
  · rw [Ready, if_pos isChild] at ready
    rw [if_pos isChild]
    exact ready.2
  rw [Ready, if_neg isChild] at ready
  rw [if_neg isChild]
  split_ifs with opens
  · obtain ⟨isLimiter, quiet⟩ := opens
    obtain ⟨rfl, rfl⟩ := stands.eq_of_ref located isLimiter
    obtain ⟨settled, refreshed, _⟩ := ready.enters_limiter stands wellFormed
      (PassM.enters_enter setting tree node before)
    rw [Settled, refreshed quiet] at settled
    rw [Bool.or_eq_true, Bool.not_eq_true', decide_eq_true_eq]
    by_cases covered : ((gate.tabAt tab before).refresh gate.limit).covered = true
    · exact .inr (settled covered).1
    · exact .inl (by simpa using covered)
  · rfl

/-- All that a tick does to the Limiter and its child is lawful, and afterwards
the Limiter agrees with the tab as it did before. -/
theorem lawful_of_tick (wellFormed : setting.forest.WellFormed)
    (isScoped : setting.forest.Scoped) {fuel : Nat} {tree : Tree} {node : Node}
    (located : setting.forest.Located tree node)
    (ready : gate.Ready tab tree node before)
    (ended : PassM.tick setting fuel tree node before = some (status, after)) :
    PassM.tickIf (gate.lawful tab setting) setting fuel tree node before =
      some (status, after) ∧ gate.Settled tab after := by
  induction fuel generalizing tree node before after status with
  | zero => cases ended
  | succ fuel induction =>
      rcases PassM.tickIf_cases (ready.lawful stands wellFormed located) ended with
        ⟨refuses, checked⟩ | ⟨opened, body, enters, updated, leaves, checks⟩
      · exact ⟨checked, ready.refuses refuses⟩
      by_cases isLimiter : tree.refTo node = gate.limiter
      · obtain ⟨rfl, rfl⟩ := stands.eq_of_ref located isLimiter
        obtain ⟨configured, kind, _⟩ := stands.kind
        have notChild : tree.refTo node ≠ gate.child :=
          isLimiter ▸ Ne.symm (stands.child_ne wellFormed)
        have isUpdate : ∀ visit : PassM.Visit α,
            PassM.update setting fuel visit tree node =
              PassM.limiter visit tree node := by
          intro visit
          rw [PassM.update, kind]
        have ticks : ∀ {start after : Pass α} {status : Status},
            gate.Delegates tab start →
            PassM.tick setting fuel tree child start = some (status, after) →
            PassM.tickIf (gate.lawful tab setting) setting fuel tree child start =
                some (status, after) ∧ gate.Settled tab after ∧
              ∃ growth, after.log = start.log ++ growth := by
          intro start after status delegates ticked
          have found := stands.locatedChild wellFormed
          have ready : gate.Ready tab tree child start := by
            rw [Ready, if_pos stands.childRef]
            exact delegates
          obtain ⟨checked, settled⟩ := induction found ready ticked
          obtain ⟨growth, log, _⟩ := PassM.begins_of_tick wellFormed found ticked
          exact ⟨checked, settled, growth, log⟩
        rw [Ready, if_neg notChild] at ready
        rw [isUpdate] at updated checks
        obtain ⟨agrees, settled⟩ :=
          ready.visit_limiter stands wellFormed enters ticks updated leaves
        exact ⟨checks agrees, settled⟩
      · have different := stands.hash_ne isScoped located isLimiter
        have ticks : ∀ {middle start after : Pass α} {next : Tree} {found : Node}
            {back : Pass α → Pass α} {status : Status},
            Way setting tree node middle next found start back →
            gate.Settled tab middle →
            PassM.tick setting fuel next found start = some (status, after) →
            PassM.tickIf (gate.lawful tab setting) setting fuel next found start =
              some (status, after) ∧ gate.Settled tab (back after) := by
          intro middle start after next found back status way settled ticked
          obtain ⟨startBoard, _, backs⟩ := way.same
          obtain ⟨startLog, backLog⟩ := way.log_same
          have ready : gate.Ready tab next found start := by
            rw [Ready, if_neg fun isChild =>
              isLimiter (stands.ref_of_way wellFormed located way isChild)]
            exact settled.of_same startBoard startLog
          obtain ⟨checked, settled⟩ := induction
            (way.reaches wellFormed located .refl).1 ready ticked
          exact ⟨checked, settled.of_same (backs after).1 (backLog after)⟩
        obtain ⟨agrees, settled⟩ := PassM.agree_update
          (fun aside settled => Settled.aside settled aside different) ticks
          (ready.enters enters different) updated
        exact ⟨checks agrees,
          settled.congr (tabAt_leaves leaves) (leaves.elsewhere different)⟩

end Limiter

end Gate

end BehaviorTree
