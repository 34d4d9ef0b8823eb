import BehaviorTree.Proofs.Pass.Abandoning

/-!
# Running flags within a pass

Within a pass the running flag of a node says what the latest update of the
node came to, and what it said before the pass as long as there is none.  The
first update of a node in a pass opens it exactly if the flag was not set then.
-/

namespace BehaviorTree

/-- The result that an entry tells of a node. -/
def Activity.resultOf (ref : NodeRef) : Activity → Option Status
  | finished other status => if other = ref then some status else none
  | _ => none

/-- The result of the latest update of a node. -/
def lastResult (ref : NodeRef) (log : List Activity) : Option Status :=
  log.reverse.findSome? (·.resultOf ref)

theorem lastResult_append (ref : NodeRef) (log growth : List Activity) :
    lastResult ref (log ++ growth) =
      (lastResult ref growth).or (lastResult ref log) := by
  rw [lastResult, List.reverse_append, List.findSome?_append]
  rfl

theorem lastResult_eq_none_iff {ref : NodeRef} {log : List Activity} :
    lastResult ref log = none ↔ ∀ status, .finished ref status ∉ log := by
  simp only [lastResult, List.findSome?_eq_none_iff, List.mem_reverse]
  constructor
  · intro quiet status member
    simpa [Activity.resultOf] using quiet _ member
  · intro absent activity member
    cases activity with
    | finished other status =>
        apply if_neg
        intro same
        exact absent status (same ▸ member)
    | _ => rfl

theorem finished_of_lastResult {ref : NodeRef} {log : List Activity}
    {status : Status} (last : lastResult ref log = some status) :
    .finished ref status ∈ log := by
  obtain ⟨activity, member, result⟩ := List.exists_of_findSome?_eq_some last
  cases activity with
  | finished other found =>
      simp only [Activity.resultOf] at result
      split_ifs at result with same
      cases result
      exact same ▸ List.mem_reverse.mp member
  | _ => cases result

theorem lastResult_of_quiet {ref : NodeRef} {log growth : List Activity}
    (quiet : ∀ status, .finished ref status ∉ growth) :
    lastResult ref (log ++ growth) = lastResult ref log := by
  rw [lastResult_append, lastResult_eq_none_iff.mpr quiet, Option.none_or]

/-- The first update of a node in a log opens the node exactly if `initially`
does not say that it is running. -/
def OpensFirst (initially : NodeHash → Bool) (log : List Activity) : Prop :=
  ∀ (earlier later : List Activity) (ref : NodeRef),
    log = earlier ++ .entered ref :: later → .entered ref ∉ earlier →
    (later.head? = some (.opened ref) ↔ initially ref.hash = false)

namespace OpensFirst

variable {initially : NodeHash → Bool} {log growth : List Activity}

theorem append (opensFirst : OpensFirst initially log)
    (begins : ∀ ref, growth.head? ≠ some (.opened ref))
    (grows : ∀ (earlier later : List Activity) (ref : NodeRef),
      growth = earlier ++ .entered ref :: later → .entered ref ∉ log →
      (later.head? = some (.opened ref) ↔ initially ref.hash = false)) :
    OpensFirst initially (log ++ growth) := by
  intro earlier later ref split first
  rcases List.append_eq_append_iff.mp split with
    ⟨middle, isEarlier, isGrowth⟩ | ⟨middle, isLog, isLater⟩
  · apply grows _ _ _ isGrowth
    intro member
    exact first (isEarlier ▸ List.mem_append_left _ member)
  cases middle with
  | nil =>
      rw [List.append_nil] at isLog
      have isGrowth : growth = [] ++ .entered ref :: later := isLater.symm
      exact grows _ _ _ isGrowth (isLog ▸ first)
  | cons activity middle =>
      obtain ⟨same, isLater⟩ := List.cons.inj isLater
      rw [← same] at isLog
      have opens := opensFirst _ _ _ isLog first
      cases middle with
      | nil =>
          have notOpened : later.head? ≠ some (.opened ref) :=
            isLater ▸ begins ref
          have running : ¬ initially ref.hash = false :=
            fun quiet => by simpa using opens.mpr quiet
          exact ⟨fun opened => absurd opened notOpened,
            fun quiet => absurd quiet running⟩
      | cons next middle =>
          rw [isLater]
          exact opens

theorem append_quiet (opensFirst : OpensFirst initially log)
    (begins : ∀ ref, growth.head? ≠ some (.opened ref))
    (quiet : ∀ ref, .entered ref ∉ growth) :
    OpensFirst initially (log ++ growth) := by
  apply opensFirst.append begins
  intro earlier later ref split _
  exact absurd (split ▸ List.mem_append_right _ List.mem_cons_self) (quiet ref)

end OpensFirst

namespace Forest

/-- Every hash is in the scope of the tree that registers it. -/
def Scoped (forest : Forest) : Prop :=
  ∀ (id : TreeId) (tree : Tree) (hash : NodeHash),
    forest.get? id = some tree → tree.contains hash = true →
    hash.isScopedTo id = true

instance (forest : Forest) : Decidable forest.Scoped :=
  decidable_of_iff
    (∀ entry ∈ forest.trees.toList, ∀ hash ∈ entry.2.nodes.keys,
      hash.isScopedTo entry.1 = true) <| by
    constructor
    · intro scopes id tree hash registered contained
      refine scopes (id, tree)
        (Std.ExtTreeMap.mem_toList_iff_getElem?_eq_some.mpr registered) hash ?_
      rwa [Std.ExtTreeMap.mem_keys, ← Std.ExtTreeMap.contains_iff_mem]
    · intro isScoped entry listed hash member
      refine isScoped _ _ _ (Std.ExtTreeMap.mem_toList_iff_getElem?_eq_some.mp listed)
        ?_
      rwa [Tree.contains, Std.ExtTreeMap.contains_iff_mem,
        ← Std.ExtTreeMap.mem_keys]

/-- In a scoped forest the hash of a node tells its tree. -/
theorem Scoped.unique {forest : Forest} (isScoped : forest.Scoped)
    {tree other : Tree} {node found : Node}
    (located : forest.Located tree node)
    (otherLocated : forest.Located other found)
    (same : found.hash = node.hash) : other = tree ∧ found = node := by
  have scopeOf : ∀ {tree : Tree} {node : Node}, forest.Located tree node →
      node.hash.scopeId = some tree.id := by
    intro tree node located
    have contained : tree.contains node.hash = true := by
      rw [Tree.contains_eq_isSome, located.inTree]
      rfl
    exact beq_iff_eq.mp (isScoped _ _ _ located.inForest contained)
  have sameId : other.id = tree.id := by
    have scope := scopeOf otherLocated
    rw [same, scopeOf located] at scope
    exact (Option.some.inj scope).symm
  have sameTree : other = tree := by
    have found := otherLocated.inForest
    rw [sameId, located.inForest] at found
    exact (Option.some.inj found).symm
  refine ⟨sameTree, ?_⟩
  have inTree := otherLocated.inTree
  rw [sameTree, same, located.inTree] at inTree
  exact (Option.some.inj inTree).symm

end Forest

namespace Pass

variable {α : Type} {tree : Tree} {node : Node} {status : Status}
  {before after : Pass α}

theorem Enters.mem_log_iff (enters : Enters tree node before after)
    {activity : Activity} : activity ∈ after.log ↔
      activity ∈ before.log ∨ activity = .entered (tree.refTo node) ∨
        ((before.board.stateFor tree node).running = false ∧
          activity = .opened (tree.refTo node)) := by
  rw [enters.log, List.mem_append, List.mem_cons]
  cases (before.board.stateFor tree node).running with
  | true => simp
  | false => simp

theorem Leaves.mem_log_iff (leaves : Leaves tree node status before after)
    {activity : Activity} : activity ∈ after.log ↔
      activity ∈ before.log ∨
        activity = .finished (tree.refTo node) status ∨
        (status ≠ .running ∧ activity = .closed (tree.refTo node)) := by
  rw [leaves.log, List.mem_append, List.mem_cons]
  by_cases isRunning : status = .running
  · simp [isRunning]
  · simp [isRunning]

theorem Leaves.mem_runningNow_iff
    (leaves : Leaves tree node status before after) {ref : NodeRef} :
    ref ∈ after.board.runningNow ↔
      ref ∈ before.board.runningNow ∨
        (status = .running ∧ ref = tree.refTo node) := by
  rw [leaves.runningNow]
  by_cases isNew : status = .running ∧ tree.refTo node ∉ before.board.runningNow
  · simp [isNew]
  · rw [if_neg isNew]
    constructor
    · exact .inl
    · intro listed
      rcases listed with member | ⟨isRunning, isNode⟩
      · exact member
      · by_contra absent
        exact isNew ⟨isRunning, isNode ▸ absent⟩

theorem Leaves.distinct (leaves : Leaves tree node status before after)
    (distinct : before.board.runningNow.Nodup) :
    after.board.runningNow.Nodup := by
  rw [leaves.runningNow]
  by_cases isNew : status = .running ∧ tree.refTo node ∉ before.board.runningNow
  · rw [if_pos isNew]
    exact distinct.append (List.nodup_singleton _)
      (List.disjoint_singleton.mpr isNew.2)
  · rw [if_neg isNew]
    exact distinct

theorem Leaves.lastResult_self
    (leaves : Leaves tree node status before after) :
    lastResult (tree.refTo node) after.log = some status := by
  rw [leaves.log, lastResult_append]
  by_cases isRunning : status = .running
  · simp [isRunning, lastResult, Activity.resultOf]
  · simp [isRunning, lastResult, Activity.resultOf]

theorem Leaves.lastResult_other
    (leaves : Leaves tree node status before after) {ref : NodeRef}
    (different : tree.refTo node ≠ ref) :
    lastResult ref after.log = lastResult ref before.log := by
  rw [leaves.log, lastResult_of_quiet]
  intro other
  by_cases isRunning : status = .running
  · simp [isRunning, Ne.symm different]
  · simp [isRunning, Ne.symm different]

end Pass

namespace Pass

variable {α : Type}

/-- What holds throughout a pass that began with the flags `initially`, the
running list `earlier` and nothing updated.  -/
structure Tracks (forest : Forest) (initially : NodeHash → Bool)
    (earlier : List NodeRef) (pass : Pass α) : Prop where
  runningPre : pass.board.runningPre = earlier
  distinct : pass.board.runningNow.Nodup
  noted : ∀ {ref : NodeRef}, ref ∈ pass.board.runningNow ↔
    .finished ref .running ∈ pass.log
  flag : ∀ {tree : Tree} {node : Node}, forest.Located tree node →
    pass.board.isRunning node.hash =
      ((lastResult (tree.refTo node) pass.log).map
        (decide <| · = .running)).getD (initially node.hash)
  flagged : ∀ {hash : NodeHash} {state : NodeState},
    pass.board.states[hash]? = some state → state.running = true →
    ∃ tree node, forest.Located tree node ∧ node.hash = hash ∧
      state.kind.fits node.kind = true ∧
      tree.refTo node ∈ pass.board.runningNow ++ earlier
  known : ∀ {ref : NodeRef}, .entered ref ∈ pass.log → forest.Knows ref
  updated : ∀ {ref : NodeRef} {status : Status},
    .finished ref status ∈ pass.log → .entered ref ∈ pass.log
  closed : ∀ {ref : NodeRef}, .closed ref ∈ pass.log →
    .entered ref ∈ pass.log ∨ .abandoned ref ∈ pass.log
  opensFirst : OpensFirst initially pass.log

namespace Tracks

variable {forest : Forest} {initially : NodeHash → Bool}
  {earlier : List NodeRef} {tree : Tree} {node : Node} {status : Status}
  {before after : Pass α}

/-- A node executes with its own state whenever it is flagged. -/
theorem running_stateFor (tracks : Tracks forest initially earlier before)
    (isScoped : forest.Scoped) (located : forest.Located tree node) :
    (before.board.stateFor tree node).running =
      before.board.isRunning node.hash := by
  unfold Blackboard.stateFor Blackboard.isRunning
  cases present : before.board.states[node.hash]? with
  | none => rfl
  | some state =>
      dsimp only
      by_cases fits : state.kind.fits node.kind = true
      · rw [if_pos fits]
      rw [if_neg fits]
      cases running : state.running with
      | false => rfl
      | true =>
          obtain ⟨other, found, foundLocated, same, foundFits, _⟩ :=
            tracks.flagged present running
          obtain ⟨_, rfl⟩ := isScoped.unique located foundLocated same
          exact absurd foundFits fits

theorem listed_of_running (tracks : Tracks forest initially earlier before)
    (isScoped : forest.Scoped) (located : forest.Located tree node)
    (running : (before.board.stateFor tree node).running = true) :
    tree.refTo node ∈ before.board.runningNow ++ earlier := by
  rw [tracks.running_stateFor isScoped located, Blackboard.isRunning] at running
  cases present : before.board.states[node.hash]? with
  | none => simp [present] at running
  | some state =>
      rw [present] at running
      obtain ⟨other, found, foundLocated, same, _, listed⟩ :=
        tracks.flagged present running
      obtain ⟨rfl, rfl⟩ := isScoped.unique located foundLocated same
      exact listed

/-- Growth of the journal that tells of no update and leaves the flags alone. -/
theorem of_quiet (tracks : Tracks forest initially earlier before)
    {growth : List Activity} (log : after.log = before.log ++ growth)
    (silent : ∀ ref, (∀ status, .finished ref status ∉ growth) ∧
      .entered ref ∉ growth ∧ .closed ref ∉ growth ∧
      growth.head? ≠ some (.opened ref))
    (runningNow : after.board.runningNow = before.board.runningNow)
    (runningPre : after.board.runningPre = before.board.runningPre)
    (flags : ∀ {tree : Tree} {node : Node}, forest.Located tree node →
      after.board.isRunning node.hash = before.board.isRunning node.hash)
    (flagged : ∀ {hash : NodeHash} {state : NodeState},
      after.board.states[hash]? = some state → state.running = true →
      ∃ tree node, forest.Located tree node ∧ node.hash = hash ∧
        state.kind.fits node.kind = true ∧
        tree.refTo node ∈ before.board.runningNow ++ earlier) :
    Tracks forest initially earlier after where
  runningPre := by rw [runningPre, tracks.runningPre]
  distinct := by rw [runningNow]; exact tracks.distinct
  noted {ref} := by
    have absent := (silent ref).1 .running
    simp [runningNow, log, tracks.noted, absent]
  flag {tree node} located := by
    rw [flags located, tracks.flag located, log,
      lastResult_of_quiet (silent (tree.refTo node)).1]
  flagged present running := by
    rw [runningNow]
    exact flagged present running
  known {ref} member := by
    have absent := (silent ref).2.1
    simp only [log, List.mem_append, absent, or_false] at member
    exact tracks.known member
  updated {ref status} member := by
    have absent := (silent ref).1 status
    simp only [log, List.mem_append, absent, or_false] at member ⊢
    exact .inl (tracks.updated member)
  closed {ref} member := by
    have absent := (silent ref).2.2.1
    simp only [log, List.mem_append, absent, or_false] at member
    rw [log]
    exact (tracks.closed member).imp (List.mem_append_left _)
      (List.mem_append_left _)
  opensFirst := by
    rw [log]
    exact tracks.opensFirst.append_quiet (fun ref => (silent ref).2.2.2)
      fun ref => (silent ref).2.1

theorem aside (tracks : Tracks forest initially earlier before)
    (isScoped : forest.Scoped) (located : forest.Located tree node)
    (aside : Aside tree node before after) :
    Tracks forest initially earlier after := by
  obtain ⟨remarks, log, areRemarks⟩ := aside.log
  have absent : ∀ activity : Activity, activity.isRemark = false →
      activity ∉ remarks := by
    intro activity notRemark member
    rw [areRemarks activity member] at notRemark
    cases notRemark
  refine tracks.of_quiet log ?_ aside.runningNow aside.runningPre ?_ ?_
  · intro ref
    refine ⟨fun status => absent _ rfl, absent _ rfl, absent _ rfl, ?_⟩
    exact fun opens => absent _ rfl (List.mem_of_mem_head? opens)
  · intro other found foundLocated
    by_cases same : found.hash = node.hash
    · rw [same]
      rcases aside.here with kept | ⟨state, present, running, _⟩
      · rw [Blackboard.isRunning, kept]
        rfl
      · rw [← tracks.running_stateFor isScoped located, ← running,
          Blackboard.isRunning, present]
    · rw [Blackboard.isRunning, aside.elsewhere same]
      rfl
  · intro hash state present running
    by_cases same : hash = node.hash
    · rcases aside.here with kept | ⟨written, isWritten, asBefore, fits⟩
      · rw [same, kept] at present
        rw [same]
        exact tracks.flagged present running
      rw [same, isWritten] at present
      cases present
      exact ⟨tree, node, located, same.symm, fits,
        tracks.listed_of_running isScoped located (asBefore ▸ running)⟩
    · rw [aside.elsewhere same] at present
      exact tracks.flagged present running

theorem refuses (tracks : Tracks forest initially earlier before)
    (refuses : Refuses tree node before after) :
    Tracks forest initially earlier after := by
  refine tracks.of_quiet refuses.log ?_ refuses.runningNow refuses.runningPre
    ?_ ?_
  · intro ref
    simp
  · intro other found _
    rw [Blackboard.isRunning, refuses.states]
    rfl
  · intro hash state present running
    rw [refuses.states] at present
    exact tracks.flagged present running

theorem opensFirst_enters (tracks : Tracks forest initially earlier before)
    (isScoped : forest.Scoped) (located : forest.Located tree node)
    (enters : Enters tree node before after) :
    OpensFirst initially after.log := by
  rw [enters.log]
  apply tracks.opensFirst.append (by simp)
  intro sooner later ref split fresh
  have sameRef : ref = tree.refTo node ∧ later =
      if (before.board.stateFor tree node).running then []
      else [.opened (tree.refTo node)] := by
    cases sooner with
    | nil =>
        obtain ⟨same, isLater⟩ := List.cons.inj split
        exact ⟨(Activity.entered.inj same).symm, isLater.symm⟩
    | cons activity sooner =>
        obtain ⟨_, split⟩ := List.cons.inj split
        have member : .entered ref ∈
            (if (before.board.stateFor tree node).running then []
              else [.opened (tree.refTo node)] : List Activity) :=
          split ▸ List.mem_append_right _ List.mem_cons_self
        split_ifs at member
        · simp at member
        · simp at member
  obtain ⟨rfl, isLater⟩ := sameRef
  have unfinished : lastResult (tree.refTo node) before.log = none :=
    lastResult_eq_none_iff.mpr fun status member =>
      fresh (tracks.updated member)
  have flag := tracks.flag located
  rw [unfinished] at flag
  have wasRunning : (before.board.stateFor tree node).running =
      initially node.hash := by
    rw [tracks.running_stateFor isScoped located, flag]
    rfl
  rw [isLater, wasRunning]
  change _ ↔ initially node.hash = false
  cases initially node.hash with
  | true => simp
  | false => simp

theorem flag_enters (tracks : Tracks forest initially earlier before)
    (isScoped : forest.Scoped) (located : forest.Located tree node)
    (enters : Enters tree node before after) {other : Tree} {found : Node}
    (foundLocated : forest.Located other found) :
    after.board.isRunning found.hash =
      ((lastResult (other.refTo found) after.log).map
        (decide <| · = .running)).getD (initially found.hash) := by
  obtain ⟨state, present, running, _⟩ := enters.here
  have flags : after.board.isRunning found.hash =
      before.board.isRunning found.hash := by
    by_cases same : found.hash = node.hash
    · rw [same, ← tracks.running_stateFor isScoped located, ← running,
        Blackboard.isRunning, present]
    · rw [Blackboard.isRunning, enters.elsewhere same]
      rfl
  rw [flags, tracks.flag foundLocated, enters.log, lastResult_of_quiet]
  intro status
  split_ifs
  · simp
  · simp

theorem flagged_enters (tracks : Tracks forest initially earlier before)
    (isScoped : forest.Scoped) (located : forest.Located tree node)
    (enters : Enters tree node before after) {hash : NodeHash}
    {state : NodeState} (present : after.board.states[hash]? = some state)
    (isFlagged : state.running = true) :
    ∃ tree node, forest.Located tree node ∧ node.hash = hash ∧
      state.kind.fits node.kind = true ∧
      tree.refTo node ∈ after.board.runningNow ++ earlier := by
  rw [enters.runningNow]
  by_cases same : hash = node.hash
  · obtain ⟨written, isWritten, running, kind⟩ := enters.here
    rw [same, isWritten] at present
    cases present
    rw [isFlagged] at running
    rw [← running, if_pos rfl] at kind
    refine ⟨tree, node, located, same.symm, ?_,
      tracks.listed_of_running isScoped located running.symm⟩
    rw [kind]
    exact Blackboard.fits_stateFor _ _ _
  · rw [enters.elsewhere same] at present
    exact tracks.flagged present isFlagged

theorem enters (tracks : Tracks forest initially earlier before)
    (isScoped : forest.Scoped) (located : forest.Located tree node)
    (enters : Enters tree node before after) :
    Tracks forest initially earlier after where
  runningPre := by rw [enters.runningPre, tracks.runningPre]
  distinct := by rw [enters.runningNow]; exact tracks.distinct
  noted {ref} := by
    simp [enters.runningNow, tracks.noted, enters.mem_log_iff]
  flag := tracks.flag_enters isScoped located enters
  flagged := tracks.flagged_enters isScoped located enters
  known {ref} member := by
    rcases enters.mem_log_iff.mp member with member | same | ⟨_, same⟩
    · exact tracks.known member
    · exact ⟨tree, node, located, (Activity.entered.inj same).symm⟩
    · cases same
  updated {ref status} member := by
    rcases enters.mem_log_iff.mp member with member | same | ⟨_, same⟩
    · exact enters.mem_log_iff.mpr (.inl (tracks.updated member))
    · cases same
    · cases same
  closed {ref} member := by
    rcases enters.mem_log_iff.mp member with member | same | ⟨_, same⟩
    · exact (tracks.closed member).imp
        (fun sooner => enters.mem_log_iff.mpr (.inl sooner))
        fun sooner => enters.mem_log_iff.mpr (.inl sooner)
    · cases same
    · cases same
  opensFirst := tracks.opensFirst_enters isScoped located enters

theorem flag_leaves (tracks : Tracks forest initially earlier before)
    (isScoped : forest.Scoped) (located : forest.Located tree node)
    (leaves : Leaves tree node status before after) {other : Tree}
    {found : Node} (foundLocated : forest.Located other found) :
    after.board.isRunning found.hash =
      ((lastResult (other.refTo found) after.log).map
        (decide <| · = .running)).getD (initially found.hash) := by
  by_cases same : found.hash = node.hash
  · obtain ⟨rfl, rfl⟩ := isScoped.unique located foundLocated same
    obtain ⟨state, present, running, _⟩ := leaves.here
    rw [leaves.lastResult_self, Blackboard.isRunning, present]
    change state.running = decide (status = .running)
    rw [Bool.eq_iff_iff, running, decide_eq_true_iff]
  · have different : tree.refTo node ≠ other.refTo found := by
      intro equal
      exact same (congrArg NodeRef.hash equal).symm
    rw [leaves.lastResult_other different, ← tracks.flag foundLocated,
      Blackboard.isRunning, leaves.elsewhere same]
    rfl

theorem flagged_leaves (tracks : Tracks forest initially earlier before)
    (located : forest.Located tree node)
    (leaves : Leaves tree node status before after) {hash : NodeHash}
    {state : NodeState} (present : after.board.states[hash]? = some state)
    (isFlagged : state.running = true) :
    ∃ tree node, forest.Located tree node ∧ node.hash = hash ∧
      state.kind.fits node.kind = true ∧
      tree.refTo node ∈ after.board.runningNow ++ earlier := by
  by_cases same : hash = node.hash
  · obtain ⟨written, isWritten, running, kind⟩ := leaves.here
    rw [same, isWritten] at present
    cases present
    have isRunning := running.mp isFlagged
    refine ⟨tree, node, located, same.symm, ?_, ?_⟩
    · rw [kind, if_pos isRunning]
      exact Blackboard.fits_stateFor _ _ _
    · exact List.mem_append_left _
        (leaves.mem_runningNow_iff.mpr (.inr ⟨isRunning, rfl⟩))
  · rw [leaves.elsewhere same] at present
    obtain ⟨other, found, foundLocated, sameHash, fits, listed⟩ :=
      tracks.flagged present isFlagged
    refine ⟨other, found, foundLocated, sameHash, fits, ?_⟩
    rcases List.mem_append.mp listed with member | member
    · exact List.mem_append_left _ (leaves.mem_runningNow_iff.mpr (.inl member))
    · exact List.mem_append_right _ member

theorem leaves (tracks : Tracks forest initially earlier before)
    (isScoped : forest.Scoped) (located : forest.Located tree node)
    (entered : .entered (tree.refTo node) ∈ before.log)
    (leaves : Leaves tree node status before after) :
    Tracks forest initially earlier after where
  runningPre := by rw [leaves.runningPre, tracks.runningPre]
  distinct := leaves.distinct tracks.distinct
  noted {ref} := by
    rw [leaves.mem_runningNow_iff, leaves.mem_log_iff, tracks.noted]
    simp [and_comm, eq_comm]
  flag := tracks.flag_leaves isScoped located leaves
  flagged := tracks.flagged_leaves located leaves
  known {ref} member := by
    rcases leaves.mem_log_iff.mp member with member | same | ⟨_, same⟩
    · exact tracks.known member
    · cases same
    · cases same
  updated {ref found} member := by
    rcases leaves.mem_log_iff.mp member with member | same | ⟨_, same⟩
    · exact leaves.mem_log_iff.mpr (.inl (tracks.updated member))
    · cases same
      exact leaves.mem_log_iff.mpr (.inl entered)
    · cases same
  closed {ref} member := by
    rcases leaves.mem_log_iff.mp member with member | same | ⟨_, same⟩
    · exact (tracks.closed member).imp
        (fun sooner => leaves.mem_log_iff.mpr (.inl sooner))
        fun sooner => leaves.mem_log_iff.mpr (.inl sooner)
    · cases same
    · cases same
      exact .inl (leaves.mem_log_iff.mpr (.inl entered))
  opensFirst := by
    rw [leaves.log]
    apply tracks.opensFirst.append_quiet (by simp)
    intro ref
    split_ifs
    · simp
    · simp

theorem step (tracks : Tracks forest initially earlier before)
    (isScoped : forest.Scoped) (step : Step forest before after) :
    Tracks forest initially earlier after := by
  cases step with
  | aside located aside => exact tracks.aside isScoped located aside
  | refuse located refuses => exact tracks.refuses refuses
  | enter located enters => exact tracks.enters isScoped located enters
  | leave located entered leaves =>
      exact tracks.leaves isScoped located entered leaves
  | jump => exact { tracks with }

theorem steps (tracks : Tracks forest initially earlier before)
    (isScoped : forest.Scoped) (steps : Steps forest before after) :
    Tracks forest initially earlier after := by
  induction steps with
  | refl => exact tracks
  | tail _ step induction => exact induction.step isScoped step

end Tracks

end Pass

end BehaviorTree
