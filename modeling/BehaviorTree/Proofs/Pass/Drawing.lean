import Mathlib.Data.List.Perm.Subperm
import BehaviorTree.Proofs.Pass.Nesting

/-!
# Drawing without replacement

A draw takes a child out of the pool of a Prob composite.  So an update draws
each child at most once, also when the composite is entered again while it is
being updated and shares the pool with the second activation: that one empties
the pool when it is closed.  Only if it comes to `running` instead, it leaves the
pool as it is, after it may have filled it again.
-/

namespace BehaviorTree

open BehaviorTree.Pass

/-- The nodes at some positions among the children of a node. -/
def childRefs (tree : Tree) (node : Node) (positions : List Nat) :
    List NodeRef :=
  positions.filterMap fun index => (tree.childAt node index).map tree.refTo

/-- In a log no update of a node ticks a child twice, so none ticks more
children than there are. -/
def DrawsOnce (tree : Tree) (node : Node) (log : List Activity) : Prop :=
  ∀ ticks ∈ updateTicks (tree.refTo node) log,
    ticks.Nodup ∧ ticks.length ≤ node.children.length

namespace DrawsOnce

variable {tree : Tree} {node : Node} {log later : List Activity}

theorem append (nested : Nested log) (drawsOnce : DrawsOnce tree node log)
    (drawsLater : DrawsOnce tree node later) :
    DrawsOnce tree node (log ++ later) := by
  intro ticks member
  rw [updateTicks_append nested] at member
  exact (List.mem_append.mp member).elim (drawsOnce ticks) (drawsLater ticks)

theorem of_quiet (quiet : Quiet log) : DrawsOnce tree node log := by
  intro ticks member
  rw [quiet.updateTicks_eq] at member
  cases member

end DrawsOnce

section Children

variable {forest : Forest} (wellFormed : forest.WellFormed) {tree : Tree}
  {node : Node} (located : forest.Located tree node)
include wellFormed located

theorem childRef_eq {index : Nat} {ref : NodeRef}
    (isChild : (tree.childAt node index).map tree.refTo = some ref) :
    ∃ hash, node.children[index]? = some hash ∧ ref = ⟨tree.id, hash⟩ := by
  obtain ⟨child, found, rfl⟩ := Option.map_eq_some_iff.mp isChild
  obtain ⟨hash, listed, registered⟩ := Option.bind_eq_some_iff.mp found
  refine ⟨hash, listed, ?_⟩
  rw [Tree.refTo, (wellFormed.trees located.inForest).keyed registered]

theorem nodup_childRefs {positions : List Nat} (distinct : positions.Nodup) :
    (childRefs tree node positions).Nodup := by
  apply distinct.filterMap
  intro first second ref isFirst isSecond
  obtain ⟨hash, firstListed, rfl⟩ := childRef_eq wellFormed located isFirst
  obtain ⟨other, secondListed, same⟩ := childRef_eq wellFormed located isSecond
  cases same
  obtain ⟨bound, _⟩ := List.getElem?_eq_some_iff.mp firstListed
  have children := (wellFormed.trees located.inForest).children_nodup
    located.inTree
  exact (List.getElem?_inj bound children).mp
    (firstListed.trans secondListed.symm)

theorem length_childRefs_le {positions : List Nat}
    (distinct : positions.Nodup) :
    (childRefs tree node positions).length ≤ node.children.length := by
  have among : childRefs tree node positions ⊆
      node.children.map (⟨tree.id, ·⟩) := by
    intro ref member
    obtain ⟨index, _, isChild⟩ := List.mem_filterMap.mp member
    obtain ⟨hash, listed, rfl⟩ := childRef_eq wellFormed located isChild
    exact List.mem_map_of_mem (List.mem_of_getElem? listed)
  have bound := (List.subperm_of_subset
    (nodup_childRefs wellFormed located distinct) among).length_le
  rwa [List.length_map] at bound

end Children

variable {α : Type} {setting : Setting α} {tree home : Tree}
  {node composite : Node} {before middle after : Pass α}
  {growth later : List Activity}

namespace Pass

/-- As long as no update of the hash comes to `running` within another one, the
composite stays tidy, and its updates draw each child at most once. -/
def Keeps (home : Tree) (composite : Node) (before after : Pass α)
    (growth : List Activity) : Prop :=
  lingers composite.hash 0 growth = false →
  before.board.Tidy composite.hash →
  after.board.Tidy composite.hash ∧ DrawsOnce home composite growth

/-- A tick of a node adds `growth`, and keeps the composite tidy. -/
structure Upholds (home : Tree) (composite : Node) (ref : NodeRef)
    (before after : Pass α) (growth : List Activity) : Prop where
  visits : Visits ref before after growth
  keeps : Keeps home composite before after growth

theorem Keeps.trans (nested : Nested growth)
    (first : Keeps home composite before middle growth)
    (second : Keeps home composite middle after later) :
    Keeps home composite before after (growth ++ later) := by
  intro settled tidy
  rw [lingers_append nested, Bool.or_eq_false_iff] at settled
  obtain ⟨tidyMiddle, drawsOnce⟩ := first settled.1 tidy
  obtain ⟨tidyAfter, drawsLater⟩ := second settled.2 tidyMiddle
  exact ⟨tidyAfter, drawsOnce.append nested drawsLater⟩

theorem Keeps.of_quiet (quiet : Quiet growth)
    (tidy : before.board.Tidy composite.hash → after.board.Tidy composite.hash) :
    Keeps home composite before after growth :=
  fun _ tidyBefore => ⟨tidy tidyBefore, .of_quiet quiet⟩

/-- Flows at other nodes than Prob composites of the hash. -/
theorem Flow.keeps
    (apart : composite.hash = node.hash →
      ¬ (node.kind = .probSequence ∨ node.kind = .probSelector))
    (flow : Flow setting (fun tree node before _ after =>
      ∃ growth, Upholds home composite (tree.refTo node) before after growth)
      tree node before after) :
    ∃ growth, Wanders node before after growth ∧
      Keeps home composite before after growth := by
  induction flow with
  | start => exact ⟨[], .refl, .of_quiet (fun _ member => nomatch member) id⟩
  | aside _ aside induction =>
      obtain ⟨growth, wanders, keeps⟩ := induction
      obtain ⟨remarks, log, quiet⟩ := aside.quiet
      exact ⟨growth ++ remarks, wanders.aside aside log quiet,
        keeps.trans wanders.nested (.of_quiet quiet (aside.tidy apart))⟩
  | child _ _ _ ticked induction =>
      obtain ⟨growth, wanders, keeps⟩ := induction
      obtain ⟨visited, upholds⟩ := ticked
      exact ⟨growth ++ visited, wanders.visit upholds.visits,
        keeps.trans wanders.nested upholds.keeps⟩
  | jump _ _ _ _ ticked induction =>
      obtain ⟨growth, wanders, keeps⟩ := induction
      obtain ⟨visited, upholds⟩ := ticked
      exact ⟨growth ++ visited,
        { wanders.visit { upholds.visits with } with },
        keeps.trans wanders.nested upholds.keeps⟩

/-- What drawing children adds to the journal.  Unless another update of the
hash comes to `running` meanwhile, what is drawn leaves the candidates. -/
structure Draws (home : Tree) (composite : Node) (tree : Tree) (node : Node)
    (before after : Pass α) (growth : List Activity) (drawn : List Nat) :
    Prop where
  log : after.log = before.log ++ growth
  nested : Nested growth
  own : ownTicks 0 growth = childRefs tree node drawn
  distinct : Settles node.hash growth →
    (before.board.candidates node.hash).Nodup →
    drawn.Nodup ∧ drawn ⊆ before.board.candidates node.hash ∧
      (after.board.candidates node.hash).Nodup ∧
      DrawsOnce home composite growth

/-- One round of drawing: the candidate `index` is drawn and ticked. -/
structure Round (home : Tree) (composite : Node) (tree : Tree) (node : Node)
    (index : Nat) (rest : List Nat) (before after : Pass α)
    (visited : List Activity) : Prop where
  log : after.log = before.log ++ visited
  nested : Nested visited
  own : ownTicks 0 visited = childRefs tree node [index]
  perm : (before.board.candidates node.hash).Perm (index :: rest)
  fades : Settles node.hash visited →
    (after.board.candidates node.hash).Sublist rest
  drawsOnce : Settles node.hash visited → rest.Nodup →
    DrawsOnce home composite visited

namespace Round

variable {index : Nat} {rest drawn : List Nat} {visited : List Activity}

theorem nodup (round : Round home composite tree node index rest before after
      visited)
    (distinct : (before.board.candidates node.hash).Nodup) :
    index ∉ rest ∧ rest.Nodup :=
  List.nodup_cons.mp (round.perm.nodup_iff.mp distinct)

theorem singleton_subset
    (round : Round home composite tree node index rest before after visited) :
    [index] ⊆ before.board.candidates node.hash := by
  intro other member
  rw [List.mem_singleton.mp member]
  exact round.perm.mem_iff.mpr List.mem_cons_self

theorem stops
    (round : Round home composite tree node index rest before after visited) :
    Draws home composite tree node before after visited [index] where
  log := round.log
  nested := round.nested
  own := round.own
  distinct settles distinct := by
    obtain ⟨_, distinctRest⟩ := round.nodup distinct
    exact ⟨List.nodup_singleton _, round.singleton_subset,
      distinctRest.sublist (round.fades settles),
      round.drawsOnce settles distinctRest⟩

/-- The composite goes on with what is left. -/
theorem goesOn
    (round : Round home composite tree node index rest before middle visited)
    (draws : Draws home composite tree node middle after growth drawn) :
    Draws home composite tree node before after (visited ++ growth)
      (index :: drawn) where
  log := by rw [draws.log, round.log, List.append_assoc]
  nested := round.nested.append draws.nested
  own := by
    rw [ownTicks_append round.nested, round.own, draws.own, childRefs,
      childRefs, ← List.filterMap_append, List.singleton_append]
    rfl
  distinct settles distinct := by
    obtain ⟨settlesVisited, settlesGrowth⟩ := settles_append.mp settles
    obtain ⟨fresh, distinctRest⟩ := round.nodup distinct
    have fades := round.fades settlesVisited
    obtain ⟨distinctDrawn, among, distinctAfter, drawsLater⟩ :=
      draws.distinct settlesGrowth (distinctRest.sublist fades)
    have fromRest : drawn ⊆ rest :=
      fun _ member => fades.subset (among member)
    refine ⟨List.nodup_cons.mpr
      ⟨fun member => fresh (fromRest member), distinctDrawn⟩, ?_, distinctAfter,
      (round.drawsOnce settlesVisited distinctRest).append round.nested
        drawsLater⟩
    intro other member
    rw [round.perm.mem_iff]
    rcases List.mem_cons.mp member with rfl | member
    · exact List.mem_cons_self
    · exact List.mem_cons_of_mem _ (fromRest member)

/-- The composite keeps the drawn child as the one that is running. -/
theorem records
    (round : Round home composite tree node index rest before middle visited)
    (prob : node.kind = .probSequence ∨ node.kind = .probSelector)
    (recorded : PassM.recordProb tree node index middle = some ((), after)) :
    ∃ remarks, Draws home composite tree node before after (visited ++ remarks)
      [index] := by
  have aside := PassM.aside_of_recorded
    (PassM.recordProb_eq tree node index middle) recorded
  obtain ⟨remarks, log, quiet⟩ := aside.quiet
  refine ⟨remarks, ?_, ?_, ?_, ?_⟩
  · rw [log, round.log, List.append_assoc]
  · exact round.nested.append quiet.nested
  · rw [ownTicks_append round.nested, quiet.ownTicks_eq, List.append_nil,
      round.own]
  · intro settles distinct
    have settlesVisited := (settles_append.mp settles).1
    obtain ⟨fresh, distinctRest⟩ := round.nodup distinct
    obtain ⟨pool, candidates, among⟩ := recordProb_cases prob recorded
    have fromRest := List.Sublist.trans among (round.fades settlesVisited)
    refine ⟨List.nodup_singleton _, round.singleton_subset, ?_,
      (round.drawsOnce settlesVisited distinctRest).append round.nested
        (.of_quiet quiet)⟩
    rw [candidates]
    exact List.nodup_cons.mpr ⟨fun member => fresh (fromRest.subset member),
      distinctRest.sublist fromRest⟩

end Round

section Updates

variable {fuel : Nat} (wellFormed : setting.forest.WellFormed)
  (upholds : ∀ {tree : Tree} {node : Node} {before after : Pass α}
    {status : Status}, setting.forest.Located tree node →
    PassM.tick setting fuel tree node before = some (status, after) →
    ∃ growth, Upholds home composite (tree.refTo node) before after growth)
  (located : setting.forest.Located tree node)
  (sameHash : composite.hash = node.hash)
include wellFormed upholds located sameHash

/-- A drawn child that was ticked makes a round. -/
theorem round_of_tickChild {index : Nat} {status : Status}
    (drawn : (before.nextProbChild tree node).1 = some index)
    (ended : PassM.tickChild (PassM.tick setting fuel) tree node index
      (before.nextProbChild tree node).2 = some (status, after)) :
    ∃ rest visited,
      Round home composite tree node index rest before after visited := by
  rcases before.nextProbChild_cases tree node with ⟨isNone, _⟩ |
    ⟨found, isSome, log, perm⟩
  · rw [drawn] at isNone
    cases isNone
  rw [drawn] at isSome
  cases isSome
  unfold PassM.tickChild at ended
  cases isChild : tree.childAt node index with
  | none =>
      rw [isChild] at ended
      cases ended
      refine ⟨_, [], ?_, .nil, ?_, perm, fun _ => .refl _,
        fun _ _ => .of_quiet fun _ member => nomatch member⟩
      · rw [List.append_nil, ← log]
        rfl
      · simp [childRefs, isChild, ownTicks]
  | some child =>
      rw [isChild] at ended
      obtain ⟨visited, visits, keeps⟩ :=
        upholds (wellFormed.located_childAt located isChild) ended
      refine ⟨_, visited, ?_, visits.nested, ?_, perm, visits.fades, ?_⟩
      · rw [visits.log, log]
      · simp [visits.own, childRefs, isChild]
      · intro settles distinct
        rw [← sameHash] at settles distinct
        exact (keeps (lingers_of_settles settles 0)
          (Blackboard.tidy_of_nodup distinct)).2

variable (prob : node.kind = .probSequence ∨ node.kind = .probSelector)
include prob

omit wellFormed upholds located sameHash in
theorem draws_of_none (isNone : (before.nextProbChild tree node).1 = none) :
    ∃ remarks, Draws home composite tree node before
      (before.nextProbChild tree node).2 remarks [] := by
  obtain ⟨remarks, log, quiet⟩ :=
    (Aside.nextProbChild before prob : Aside tree node before _).quiet
  refine ⟨remarks, log, quiet.nested, quiet.ownTicks_eq, ?_⟩
  intro _ distinct
  rcases before.nextProbChild_cases tree node with ⟨_, board⟩ |
    ⟨index, isSome, _⟩
  · exact ⟨List.nodup_nil, List.nil_subset _, board ▸ distinct,
      .of_quiet quiet⟩
  · rw [isNone] at isSome
    cases isSome

theorem draws_of_drawLoop {count : Nat} {goOn status : Status}
    (ended : PassM.drawLoop (PassM.tickChild (PassM.tick setting fuel) tree node)
      tree node goOn count before = some (status, after)) :
    ∃ growth drawn,
      Draws home composite tree node before after growth drawn := by
  induction count generalizing before with
  | zero => cases ended
  | succ count induction =>
      rw [PassM.drawLoop, PassM.modifyGet_bind] at ended
      cases next : (before.nextProbChild tree node).1 with
      | none =>
          rw [next] at ended
          cases ended
          obtain ⟨remarks, draws⟩ := draws_of_none prob next
          exact ⟨_, _, draws⟩
      | some index =>
          rw [next] at ended
          dsimp only at ended
          rw [PassM.bind_apply] at ended
          obtain ⟨⟨found, middle⟩, ticked, ended⟩ :=
            Option.bind_eq_some_iff.mp ended
          obtain ⟨rest, visited, round⟩ := round_of_tickChild wellFormed
            upholds located sameHash next ticked
          dsimp only at ended
          by_cases running : found = .running
          · rw [if_pos running, PassM.bind_apply] at ended
            obtain ⟨⟨_, last⟩, recorded, ended⟩ :=
              Option.bind_eq_some_iff.mp ended
            cases ended
            obtain ⟨remarks, draws⟩ := round.records prob recorded
            exact ⟨_, _, draws⟩
          rw [if_neg running] at ended
          by_cases same : found = goOn
          · rw [if_pos same] at ended
            obtain ⟨growth, drawn, draws⟩ := induction ended
            exact ⟨_, _, round.goesOn draws⟩
          · rw [if_neg same] at ended
            cases ended
            exact ⟨_, _, round.stops⟩

/-- The update of a Prob composite draws from what it starts with. -/
theorem draws_of_update {status : Status}
    (ended : PassM.update setting fuel (PassM.tick setting fuel) tree node
      before = some (status, after)) :
    ∃ ensured growth drawn, ensured.log = before.log ∧
      (ensured.board.candidates node.hash).Sublist
        (before.board.candidates node.hash) ∧
      Draws home composite tree node ensured after growth drawn := by
  have ensures : Writes tree node [] (before.board.stateFor tree node) before
      (before.ensureState tree node).2 := Writes.updateState before id
  have scans : ∃ goOn, PassM.scanProb fuel (PassM.tick setting fuel) tree node
      goOn before = some (status, after) := by
    unfold PassM.update at ended
    rcases prob with kind | kind
    · rw [kind] at ended
      exact ⟨_, ended⟩
    · rw [kind] at ended
      exact ⟨_, ended⟩
  obtain ⟨goOn, ended⟩ := scans
  rw [PassM.scanProb, PassM.modifyGet_bind] at ended
  obtain ⟨growth, drawn, draws⟩ :=
    draws_of_drawLoop wellFormed upholds located sameHash prob ended
  refine ⟨_, growth, drawn, ?_, ?_, draws⟩
  · rw [ensures.log, List.append_nil]
  · rw [Blackboard.candidates_eq ensures.here]
    exact before.board.candidates_stateFor tree node

end Updates

section Ticks

variable {opened body : Pass α} {opening closing : List Activity}
  {status : Status}

theorem settles_of_tick {ref : NodeRef} {hash : NodeHash}
    (openingQuiet : Quiet opening) (nested : Nested growth)
    (settled : lingers hash 0 (.entered ref :: ((opening ++ growth) ++
      .finished ref status :: closing)) = false) :
    lingers hash 0 growth = false ∧ (hash = ref.hash → Settles hash growth) := by
  have inner := openingQuiet.nested.append nested
  rw [lingers_update inner] at settled
  by_cases same : ref.hash = hash
  · rw [if_pos same, Bool.or_eq_false_iff] at settled
    have settles : Settles hash growth :=
      (settles_append.mp (settles_of_lingers inner settled.1)).2
    exact ⟨lingers_of_settles settles 0, fun _ => settles⟩
  · rw [if_neg same, Bool.or_eq_false_iff,
      lingers_append openingQuiet.nested, Bool.or_eq_false_iff] at settled
    exact ⟨settled.1.2, fun sameHash => absurd sameHash.symm same⟩

theorem updateTicks_of_tick {ref other : NodeRef}
    (openingQuiet : Quiet opening) (nested : Nested growth)
    (closingQuiet : Quiet closing) :
    updateTicks ref (.entered other :: ((opening ++ growth) ++
      .finished other status :: closing)) =
      (if other = ref then [ownTicks 0 growth] else []) ++
        updateTicks ref growth := by
  have inner := openingQuiet.nested.append nested
  rw [updateTicks_update inner, ownTicks_append openingQuiet.nested,
    openingQuiet.ownTicks_eq, updateTicks_append openingQuiet.nested,
    openingQuiet.updateTicks_eq, closingQuiet.updateTicks_eq, List.nil_append,
    List.nil_append, List.append_nil]

/-- The tick of another node than a Prob composite of the hash. -/
theorem Keeps.elsewhere
    (apart : composite.hash = node.hash →
      ¬ (node.kind = .probSequence ∨ node.kind = .probSelector))
    (others : tree.refTo node ≠ home.refTo composite)
    (enters : Enters tree node before opened)
    (leaves : Leaves tree node status body after)
    (openingQuiet : Quiet opening) (closingQuiet : Quiet closing)
    (nested : Nested growth) (keeps : Keeps home composite opened body growth) :
    Keeps home composite before after
      (.entered (tree.refTo node) :: ((opening ++ growth) ++
        .finished (tree.refTo node) status :: closing)) := by
  intro settled tidy
  obtain ⟨tidyBody, drawsOnce⟩ :=
    keeps (settles_of_tick openingQuiet nested settled).1 (enters.tidy tidy)
  constructor
  · by_cases same : composite.hash = node.hash
    · have fits := Blackboard.fits_stateFor body.board tree node
      rw [same]
      apply leaves.tidy
      rw [KindState.candidates_of_not_prob fits (apart same)]
      exact List.nodup_nil
    · exact Blackboard.tidy_congr (leaves.elsewhere same) tidyBody
  · intro ticks member
    rw [updateTicks_of_tick openingQuiet nested closingQuiet,
      if_neg others] at member
    exact drawsOnce ticks member

/-- The tick of a Prob composite of the hash. -/
theorem Keeps.here (wellFormed : setting.forest.WellFormed)
    (composed : setting.forest.Located home composite)
    (located : setting.forest.Located tree node)
    (sameHash : composite.hash = node.hash)
    {ensured : Pass α} {drawn : List Nat}
    (enters : Enters tree node before opened)
    (leaves : Leaves tree node status body after)
    (openingQuiet : Quiet opening) (closingQuiet : Quiet closing)
    (fewer : (ensured.board.candidates node.hash).Sublist
      (opened.board.candidates node.hash))
    (draws : Draws home composite tree node ensured body growth drawn) :
    Keeps home composite before after
      (.entered (tree.refTo node) :: ((opening ++ growth) ++
        .finished (tree.refTo node) status :: closing)) := by
  intro settled tidy
  rw [sameHash] at settled tidy
  have settles :=
    (settles_of_tick openingQuiet draws.nested settled).2 rfl
  have starts := (enters.nodup_candidates tidy).sublist fewer
  obtain ⟨distinct, _, ends, drawsOnce⟩ := draws.distinct settles starts
  constructor
  · rw [sameHash]
    exact leaves.tidy (ends.sublist (body.board.candidates_stateFor tree node))
  · intro ticks member
    rw [updateTicks_of_tick openingQuiet draws.nested closingQuiet] at member
    rcases List.mem_append.mp member with own | inner
    · split at own
      · next same =>
          obtain ⟨rfl, rfl⟩ := located.eq_of_ref composed same
          rw [List.mem_singleton.mp own, draws.own]
          exact ⟨nodup_childRefs wellFormed located distinct,
            length_childRefs_le wellFormed located distinct⟩
      · cases own
    · exact drawsOnce ticks inner

end Ticks

end Pass

/-- A tick keeps a Prob composite tidy and lets it draw each child at most once
in an update, unless it is left running within its own update. -/
theorem PassM.upholds_of_tick (wellFormed : setting.forest.WellFormed)
    (composed : setting.forest.Located home composite)
    (prob : composite.kind = .probSequence ∨ composite.kind = .probSelector)
    {fuel : Nat} {status : Status} (located : setting.forest.Located tree node)
    (ended : tick setting fuel tree node before = some (status, after)) :
    ∃ growth, Upholds home composite (tree.refTo node) before after growth := by
  induction fuel generalizing tree node before status after with
  | zero => cases ended
  | succ fuel induction =>
      rcases tick_flow wellFormed located ended with
        ⟨_, refused⟩ | ⟨opened, body, enters, updated, flow, leaves⟩
      · refine ⟨_, refused.visits, fun _ tidy => ⟨?_, ?_⟩⟩
        · exact Blackboard.tidy_congr (by rw [refused.states]) tidy
        · intro ticks member
          cases member
      obtain ⟨opening, openingLog, openingQuiet⟩ := enters.quiet
      obtain ⟨closing, closingLog, closingQuiet⟩ := leaves.quiet
      by_cases here : composite.hash = node.hash ∧
          (node.kind = .probSequence ∨ node.kind = .probSelector)
      · obtain ⟨sameHash, isProb⟩ := here
        obtain ⟨growth, wanders⟩ := Flow.wanders
          (flow.mono fun ⟨found, _, ticked, _⟩ =>
            visits_of_tick wellFormed found ticked)
        obtain ⟨ensured, drawnLog, drawn, ensuredLog, fewer, draws⟩ :=
          draws_of_update wellFormed induction located sameHash isProb updated
        have sameGrowth : drawnLog = growth := by
          have log := draws.log
          rw [ensuredLog, wanders.log] at log
          exact (List.append_cancel_left log).symm
        subst sameGrowth
        exact ⟨_, wanders.visits enters openingLog openingQuiet leaves
            closingLog closingQuiet,
          .here wellFormed composed located sameHash enters leaves openingQuiet
            closingQuiet fewer draws⟩
      · have apart : composite.hash = node.hash →
            ¬ (node.kind = .probSequence ∨ node.kind = .probSelector) :=
          fun same isProb => here ⟨same, isProb⟩
        have others : tree.refTo node ≠ home.refTo composite := by
          intro same
          obtain ⟨rfl, rfl⟩ := located.eq_of_ref composed same
          exact apart rfl prob
        obtain ⟨growth, wanders, keeps⟩ := Flow.keeps apart
          (flow.mono fun ⟨found, _, ticked, _⟩ => induction found ticked)
        exact ⟨_, wanders.visits enters openingLog openingQuiet leaves
            closingLog closingQuiet,
          keeps.elsewhere apart others enters leaves openingQuiet closingQuiet
            wanders.nested⟩

end BehaviorTree
