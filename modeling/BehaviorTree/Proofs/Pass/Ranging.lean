import BehaviorTree.Proofs.Forest.Walking
import BehaviorTree.Proofs.Pass.Candidates
import BehaviorTree.Proofs.Pass.Failing
import BehaviorTree.Proofs.Pass.Running

/-!
# Children that are there

A composite ticks the positions of its children; only a Prob composite takes
them from its state.  Opening it puts the positions of all its children there,
and what is running keeps them, so in a forest in which every Root and decorator
has its child nothing ticks a child that is not there.
-/

namespace BehaviorTree

/-- All candidates of a node are positions of children. -/
def Blackboard.InRange (board : Blackboard) (node : Node) : Prop :=
  ∀ index ∈ board.candidates node.hash, index < node.children.length

/-- The candidates of whatever is running are positions of children. -/
def Forest.Ranged (forest : Forest) (board : Blackboard) : Prop :=
  ∀ ⦃tree : Tree⦄ ⦃node : Node⦄, forest.Located tree node →
    board.isRunning node.hash = true → board.InRange node

namespace Blackboard

variable {first second : Blackboard} {node : Node}

theorem inRange_congr
    (same : second.states[node.hash]? = first.states[node.hash]?)
    (inRange : first.InRange node) : second.InRange node := by
  intro index member
  rw [candidates_congr same] at member
  exact inRange index member

theorem InRange.of_subset (inRange : first.InRange node)
    (fewer : second.candidates node.hash ⊆ first.candidates node.hash) :
    second.InRange node :=
  fun index member => inRange index (fewer member)

theorem inRange_of_empty (empty : first.candidates node.hash = []) :
    first.InRange node := by
  intro index member
  rw [empty] at member
  cases member

theorem isRunning_of_stateFor {board : Blackboard} (tree : Tree)
    (running : (board.stateFor tree node).running = true) :
    board.isRunning node.hash = true := by
  rw [stateFor] at running
  cases present : board.states[node.hash]? with
  | none =>
      rw [present] at running
      cases running
  | some state =>
      rw [isRunning_eq present]
      rw [present] at running
      dsimp only at running
      split at running
      · exact running
      · cases running

end Blackboard

namespace Pass

variable {α : Type} {setting : Setting α} {forest : Forest} {tree : Tree}
  {node : Node} {status : Status} {before middle after : Pass α}

theorem candidates_ensureState (pass : Pass α) (tree : Tree) (node : Node) :
    (pass.ensureState tree node).2.board.candidates node.hash ⊆
      pass.board.candidates node.hash := by
  have writes : Writes tree node [] (pass.board.stateFor tree node) pass
      (pass.ensureState tree node).2 := Writes.updateState pass id
  rw [Blackboard.candidates_eq writes.here]
  exact (pass.board.candidates_stateFor tree node).subset

theorem candidates_updateKind {change : KindState → Option KindState}
    (pass : Pass α) (tree : Tree) (node : Node)
    (unchanged : change (pass.board.stateFor tree node).kind = none) :
    (pass.updateKind tree node change).board.candidates node.hash ⊆
      pass.board.candidates node.hash := by
  rw [updateKind_of_none unchanged]
  exact pass.candidates_ensureState tree node

theorem exists_prob_of_fits {kind : KindState}
    (prob : node.kind = .probSequence ∨ node.kind = .probSelector)
    (fits : kind.fits node.kind = true) :
    ∃ weights available runningChild,
      kind = .prob weights available runningChild := by
  cases kind with
  | prob weights available runningChild => exact ⟨_, _, _, rfl⟩
  | _ =>
      rcases prob with isKind | isKind <;>
        simp [isKind, KindState.fits, KindState.shape,
          NodeKind.stateShape] at fits

/-- A move of a Prob composite leaves it with positions of children. -/
theorem Move.inRange (move : Move tree node before after)
    (inRange : before.board.InRange node) : after.board.InRange node := by
  by_cases prob : node.kind = .probSequence ∨ node.kind = .probSelector
  · obtain ⟨weights, available, runningChild, isProb⟩ :=
      exists_prob_of_fits prob (before.board.fits_stateFor tree node)
    have notOther : ∀ {kind : NodeKind}, node.kind = kind →
        kind.stateShape ≠ .prob → False := by
      intro kind isKind differs
      rcases prob with isProb | isProb
      · rw [← isKind, isProb] at differs
        exact differs rfl
      · rw [← isKind, isProb] at differs
        exact differs rfl
    -- of these moves only a record and a draw put candidates in place
    cases move with
    | ensure => exact inRange.of_subset (before.candidates_ensureState tree node)
    | misfit => exact inRange
    | echo => exact inRange
    | recordMem index recorded =>
        cases recorded
        exact inRange.of_subset
          (before.candidates_updateKind tree node (by rw [isProb]))
    | @recordProb _ _ _ index _ isChild recorded =>
        obtain ⟨pool, isPool, among⟩ := recordProb_cases prob recorded
        intro candidate member
        rw [isPool] at member
        rcases List.mem_cons.mp member with rfl | member
        · obtain ⟨hash, listed, _⟩ := Option.bind_eq_some_iff.mp isChild
          exact (List.getElem?_eq_some_iff.mp listed).1
        · exact inRange candidate (among.subset member)
    | draw =>
        rcases nextProbChild_cases before tree node with
          ⟨_, same⟩ | ⟨index, _, _, drawn⟩
        · rw [same]
          exact inRange
        · exact inRange.of_subset fun candidate member =>
            drawn.symm.subset (List.mem_cons_of_mem _ member)
    | prepare =>
        have kind : (before.ensureState tree node).1.kind =
            .prob weights available runningChild := isProb
        unfold prepareParallel
        dsimp only
        rw [kind]
        exact inRange.of_subset (before.candidates_ensureState tree node)
    | record _ index status isParallel =>
        exact (notOther isParallel nofun).elim
    | setRepeatCount change changed =>
        cases changed
        exact inRange.of_subset
          (before.candidates_updateKind tree node (by rw [isProb]))
    | spend _ limit remaining isLimiter =>
        exact (notOther isLimiter nofun).elim
  · rcases move.aside.here with same | ⟨state, present, _, fits⟩
    · exact Blackboard.inRange_congr same inRange
    · apply Blackboard.inRange_of_empty
      rw [Blackboard.candidates_eq present]
      exact KindState.candidates_of_not_prob fits prob

/-- The board stays bound to its tree, positions of children remain such, and
what comes to be running has only such candidates. -/
structure Preserves (forest : Forest) (before after : Pass α) : Prop where
  bound : after.board.tree = before.board.tree
  inRange : ∀ {tree : Tree} {node : Node}, forest.Located tree node →
    before.board.InRange node → after.board.InRange node
  running : ∀ {tree : Tree} {node : Node}, forest.Located tree node →
    after.board.isRunning node.hash = true →
    before.board.isRunning node.hash = true ∨ after.board.InRange node

namespace Preserves

theorem of_states (bound : after.board.tree = before.board.tree)
    (states : after.board.states = before.board.states) :
    Preserves forest before after where
  bound := bound
  inRange _ := Blackboard.inRange_congr (by rw [states])
  running _ running := by
    rw [Blackboard.isRunning, states] at running
    exact .inl running

theorem of_board (same : after.board = before.board) :
    Preserves forest before after :=
  of_states (congrArg Blackboard.tree same) (congrArg Blackboard.states same)

theorem trans (first : Preserves forest before middle)
    (second : Preserves forest middle after) : Preserves forest before after where
  bound := second.bound.trans first.bound
  inRange located inRange :=
    second.inRange located (first.inRange located inRange)
  running located running := by
    rcases second.running located running with running | inRange
    · exact (first.running located running).imp_right (second.inRange located)
    · exact .inr inRange

theorem ranged (preserves : Preserves forest before after)
    (ranged : forest.Ranged before.board) : forest.Ranged after.board := by
  intro tree node located running
  rcases preserves.running located running with running | inRange
  · exact preserves.inRange located (ranged located running)
  · exact inRange

/-- In a scoped forest only the node at which a step is made is concerned. -/
theorem of_here (isScoped : forest.Scoped) (located : forest.Located tree node)
    (bound : after.board.tree = before.board.tree)
    (elsewhere : ∀ {hash : NodeHash}, hash ≠ node.hash →
      after.board.states[hash]? = before.board.states[hash]?)
    (inRange : before.board.InRange node → after.board.InRange node)
    (running : after.board.isRunning node.hash = true →
      before.board.isRunning node.hash = true ∨ after.board.InRange node) :
    Preserves forest before after where
  bound := bound
  inRange {other found} foundLocated := by
    by_cases same : found.hash = node.hash
    · obtain ⟨_, rfl⟩ := isScoped.unique located foundLocated same
      exact inRange
    · exact Blackboard.inRange_congr (elsewhere same)
  running {other found} foundLocated := by
    by_cases same : found.hash = node.hash
    · obtain ⟨_, rfl⟩ := isScoped.unique located foundLocated same
      exact running
    · intro isRunning
      rw [Blackboard.isRunning_congr (elsewhere same)] at isRunning
      exact .inl isRunning

theorem of_act (isScoped : forest.Scoped) (located : forest.Located tree node)
    (act : Act setting tree node before after) :
    Preserves forest before after := by
  cases act with
  | move move =>
      refine .of_here isScoped located move.reserved.bound move.aside.elsewhere
        move.inRange fun running => ?_
      rcases move.aside.here with same | ⟨state, present, sameFlag, _⟩
      · rw [Blackboard.isRunning_congr same] at running
        exact .inl running
      · rw [Blackboard.isRunning_eq present, sameFlag] at running
        exact .inl (Blackboard.isRunning_of_stateFor tree running)
  | ask => exact .of_board rfl
  | run => exact .of_states rfl rfl

theorem of_acts (isScoped : forest.Scoped) (located : forest.Located tree node)
    (acts : Acts setting tree node before after) :
    Preserves forest before after := by
  induction acts with
  | refl => exact .of_board rfl
  | tail _ act induction => exact induction.trans (of_act isScoped located act)

end Preserves

theorem Enters.inRange (enters : Enters tree node before after)
    (inRange : (before.board.stateFor tree node).running = true →
      before.board.InRange node) : after.board.InRange node := by
  obtain ⟨state, present, _, kind⟩ := enters.here
  intro index member
  rw [Blackboard.candidates_eq present, kind] at member
  split at member
  · next running =>
      exact inRange running index
        ((before.board.candidates_stateFor tree node).subset member)
  · exact lt_of_mem_openedKind member

theorem Preserves.of_enters (isScoped : forest.Scoped)
    (located : forest.Located tree node)
    (bound : after.board.tree = before.board.tree)
    (enters : Enters tree node before after) :
    Preserves forest before after := by
  refine .of_here isScoped located bound enters.elsewhere
    (fun inRange => enters.inRange fun _ => inRange) fun running => ?_
  obtain ⟨state, present, sameFlag, _⟩ := enters.here
  rw [Blackboard.isRunning_eq present, sameFlag] at running
  exact .inl (Blackboard.isRunning_of_stateFor tree running)

theorem Leaves.inRange (leaves : Leaves tree node status before after)
    (inRange : before.board.InRange node) : after.board.InRange node := by
  obtain ⟨state, present, _, kind⟩ := leaves.here
  apply inRange.of_subset
  rw [Blackboard.candidates_eq present, kind]
  split
  · exact (before.board.candidates_stateFor tree node).subset
  · rw [candidates_closedKind]
    exact List.nil_subset _

theorem Preserves.of_leaves (isScoped : forest.Scoped)
    (located : forest.Located tree node)
    (bound : after.board.tree = before.board.tree)
    (leaves : Leaves tree node status before after)
    (inRange : before.board.InRange node) : Preserves forest before after :=
  .of_here isScoped located bound leaves.elsewhere leaves.inRange
    fun _ => .inr (leaves.inRange inRange)

end Pass

open BehaviorTree.Pass

variable {α : Type} {setting : Setting α} {id : TreeId} {tree : Tree}
  {node : Node}

theorem Forest.WellFormed.exists_childAt {forest : Forest}
    (wellFormed : forest.WellFormed) (located : forest.Located tree node)
    {index : Nat} (inRange : index < node.children.length) :
    ∃ child, tree.childAt node index = some child := by
  have listed : node.children[index]? = some node.children[index] :=
    List.getElem?_eq_getElem inRange
  obtain ⟨child, registered, _⟩ := (wellFormed.trees located.inForest).linked
    located.inTree (List.mem_of_getElem? listed)
  refine ⟨child, ?_⟩
  rw [Tree.childAt, listed]
  exact registered

/-- With every child in place a node lacks none that it would tick. -/
theorem Forest.Filled.not_fault {forest : Forest} (filled : forest.Filled id)
    (wellFormed : forest.WellFormed) (located : forest.Located tree node)
    (reaches : forest.Reaches id tree.id) {chosen failing : Pass α}
    {message : String} (inRange : chosen.board.InRange node) :
    ¬ Fault tree node chosen failing message := by
  have found : ∀ index < node.children.length,
      tree.childAt node index ≠ none := by
    intro index within missing
    obtain ⟨child, isChild⟩ := wellFormed.exists_childAt located within
    rw [isChild] at missing
    cases missing
  have single : node.kind.arity = .single → tree.childAt node 0 ≠ none :=
    fun single => found 0 (List.length_pos_iff.mpr
      (filled located reaches single))
  intro fault
  cases fault with
  | childless isRoot missing => exact single (by rw [isRoot]; rfl) missing
  | single isSingle missing => exact single isSingle missing
  | listed within missing => exact found _ within missing
  | drawn drawn missing =>
      refine found _ (inRange _ ?_) missing
      rcases nextProbChild_cases chosen tree node with
        ⟨isNone, _⟩ | ⟨index, isSome, _, among⟩
      · rw [isNone] at drawn
        cases drawn
      · rw [isSome] at drawn
        cases drawn
        exact among.symm.subset List.mem_cons_self

/-- What can go wrong although no child is missing, in the trees to which a
tree leads. -/
inductive Excuse (setting : Setting α) (id : TreeId) : String → Prop where
  | exhausted {budget : UInt64} {ref : NodeRef} :
      setting.config.maxStepsPerTick = some budget →
      setting.forest.Knows ref →
      setting.forest.Reaches id ref.tree →
      Excuse setting id (budgetMessage budget ref.hash)
  | mistake {tree : Tree} {node : Node} {message : String} :
      setting.forest.Located tree node →
      setting.forest.Reaches id tree.id →
      Mistake setting tree node message →
      Excuse setting id message

/-- The first letter of a message. -/
def initial (message : String) : Option Char := message.toList.head?

theorem initial_append {first : String} {letter : Char}
    (begins : initial first = some letter) (second : String) :
    initial (first ++ second) = some letter := by
  rw [initial] at begins ⊢
  rw [String.toList_append, List.head?_append, begins]
  rfl

theorem initial_label (kind : NodeKind) :
    (initial kind.label).any Char.isUpper = true := by
  cases kind
  all_goals
    rw [NodeKind.label]
    decide

theorem initial_missingMessage (node : Node) (index : Nat) :
    ∃ letter, initial (missingMessage node index) = some letter ∧
      letter.isUpper = true := by
  obtain ⟨letter, begins, upper⟩ :=
    (Option.any_eq_true _ _).mp (initial_label node.kind)
  refine ⟨letter, ?_, upper⟩
  exact initial_append (initial_append (initial_append
    (initial_append begins _) _) _) _

theorem initial_childlessMessage (tree : Tree) :
    initial (childlessMessage tree) = some 'r' := by
  have begins : initial "root of tree '" = some 'r' := rfl
  exact initial_append (initial_append begins _) _

theorem initial_budgetMessage (budget : UInt64) (hash : NodeHash) :
    initial (budgetMessage budget hash) = some 's' := by
  have begins : initial "step budget of " = some 's' := rfl
  exact initial_append (initial_append (initial_append begins _) _) _

theorem Mistake.initial {message : String}
    (mistake : Mistake setting tree node message) :
    initial message = some 't' ∨ initial message = some 'u' := by
  cases mistake with
  | unknownCondition =>
      have begins : BehaviorTree.initial "unknown condition '" = some 'u' := rfl
      exact .inr (initial_append (initial_append (initial_append
        (initial_append begins _) _) _) _)
  | unknownCommand =>
      have begins : BehaviorTree.initial "unknown command '" = some 'u' := rfl
      exact .inr (initial_append (initial_append (initial_append
        (initial_append begins _) _) _) _)
  | noTarget =>
      have begins : BehaviorTree.initial "transition '" = some 't' := rfl
      exact .inl (initial_append (initial_append begins _) _)
  | missingTarget =>
      have begins : BehaviorTree.initial "transition '" = some 't' := rfl
      exact .inl (initial_append (initial_append (initial_append begins _) _) _)
  | tooDeep =>
      have begins : BehaviorTree.initial "transition depth " = some 't' := rfl
      exact .inl (initial_append (initial_append (initial_append
        (initial_append begins _) _) _) _)

/-- Excuses begin with other letters than the complaints of missing children. -/
theorem Excuse.ne_missing {message : String}
    (excuse : Excuse setting id message) :
    (∀ tree, message ≠ childlessMessage tree) ∧
      ∀ node index, message ≠ missingMessage node index := by
  have begins : initial message ∈ [some 's', some 't', some 'u'] := by
    cases excuse with
    | exhausted =>
        rw [initial_budgetMessage]
        decide
    | mistake _ _ mistake =>
        rcases mistake.initial with same | same
        all_goals
          rw [same]
          decide
  constructor
  · rintro tree rfl
    rw [initial_childlessMessage] at begins
    revert begins
    decide
  · rintro node index rfl
    obtain ⟨letter, same, upper⟩ := initial_missingMessage node index
    rw [same] at begins
    simp only [List.mem_cons, Option.some.injEq, List.not_mem_nil,
      or_false] at begins
    rcases begins with rfl | rfl | rfl
    all_goals
      revert upper
      decide

/-- The execution problem that was recorded last is an excuse. -/
def Excused (setting : Setting α) (id : TreeId) (pass : Pass α) : Prop :=
  ∃ (globals : Globals) (message : String),
    pass.board.globals = globals.addError message ∧ Excuse setting id message

theorem Excused.of_reserved {before after : Pass α}
    (excused : Excused setting id before) (reserved : Reserved before after) :
    Excused setting id after := by
  obtain ⟨globals, message, recorded, excuse⟩ := excused
  exact ⟨globals, message, reserved.globals.trans recorded, excuse⟩

/-- A stretch of a pass that fails with an excuse or not at all. -/
structure Sound (setting : Setting α) (id : TreeId) (failed : Prop)
    (before after : Pass α) : Prop where
  preserves : Preserves setting.forest before after
  fresh : ¬ failed → after.exhausted = false
  excused : failed → Excused setting id after

theorem Way.reaches (wellFormed : setting.forest.WellFormed) {next : Tree}
    {child : Node} {pass start : Pass α} {back : Pass α → Pass α}
    (way : Way setting tree node pass next child start back)
    (located : setting.forest.Located tree node)
    (reaches : setting.forest.Reaches id tree.id) :
    setting.forest.Located next child ∧ setting.forest.Reaches id next.id := by
  cases way with
  | child _ isChild => exact ⟨wellFormed.located_childAt located isChild, reaches⟩
  | jump jumps selected =>
      exact ⟨wellFormed.located_target selected,
        reaches.tail ⟨tree, node, _, _, located, rfl, jumps, selected, rfl⟩⟩

theorem Way.same {next : Tree} {child : Node} {pass start : Pass α}
    {back : Pass α → Pass α}
    (way : Way setting tree node pass next child start back) :
    start.board = pass.board ∧ start.exhausted = pass.exhausted ∧
      ∀ after, (back after).board = after.board ∧
        (back after).exhausted = after.exhausted := by
  cases way with
  | child => exact ⟨rfl, rfl, fun _ => ⟨rfl, rfl⟩⟩
  | jump => exact ⟨rfl, rfl, fun _ => ⟨rfl, rfl⟩⟩

section Sound

variable (wellFormed : setting.forest.WellFormed)
  (isScoped : setting.forest.Scoped) (filled : setting.forest.Filled id)
include wellFormed isScoped filled

theorem Script.FailFast.sound {β : Type} {bad value : β}
    {visit : PassM.Visit α} {script : Script α β} {before after : Pass α}
    (visits : ∀ {next child start status after},
      setting.forest.Located next child → setting.forest.Reaches id next.id →
      setting.forest.Ranged start.board → start.exhausted = false →
      visit next child start = some (status, after) →
      Sound setting id (status = .error) start after)
    (located : setting.forest.Located tree node)
    (reaches : setting.forest.Reaches id tree.id)
    (failFast : script.FailFast setting tree node bad before)
    (ranged : setting.forest.Ranged before.board)
    (inRange : before.board.InRange node) (fresh : before.exhausted = false)
    (ended : script.run visit = some (value, after)) :
    Sound setting id (value = bad) before after := by
  induction failFast with
  | outOfFuel => cases ended
  | done acts good =>
      cases ended
      obtain ⟨_, smooth⟩ := Smooth.of_acts acts
      exact ⟨.of_acts isScoped located acts,
        fun _ => smooth.exhausted.trans fresh, fun same => absurd same good⟩
  | fail acts reachesFailing complaint =>
      cases ended
      refine ⟨(Preserves.of_acts isScoped located reachesFailing).trans
        (.of_states rfl rfl), fun good => absurd rfl good,
        fun _ => ⟨_, _, rfl, ?_⟩⟩
      cases complaint with
      | fault fault =>
          -- the candidates are positions of children when the child is chosen
          have chosen := Preserves.of_acts isScoped located acts
          exact absurd fault (filled.not_fault wellFormed located reaches
            (chosen.inRange located inRange))
      | mistake mistake => exact .mistake located reaches mistake
  | @tick _ middle start _ _ back _ acts way _ ends induction =>
      obtain ⟨⟨status, visited⟩, isVisit, ended⟩ :=
        Option.bind_eq_some_iff.mp ended
      obtain ⟨nextLocated, nextReaches⟩ := way.reaches wellFormed located reaches
      obtain ⟨sameBoard, sameExhausted, back⟩ := way.same
      obtain ⟨_, smooth⟩ := Smooth.of_acts acts
      have begins := (Preserves.of_acts isScoped located acts).trans
        (.of_board sameBoard)
      have startFresh : start.exhausted = false := by
        rw [sameExhausted, smooth.exhausted, fresh]
      have visit := visits nextLocated nextReaches (begins.ranged ranged)
        startFresh isVisit
      have whole := (begins.trans visit.preserves).trans
        (.of_board (back visited).1)
      by_cases failed : status = .error
      · subst failed
        obtain ⟨moved, moves, isDone⟩ := ends visited
        rw [isDone] at ended
        cases ended
        refine ⟨whole.trans (.of_acts isScoped located (moves.acts setting)),
          fun good => absurd rfl good, fun _ => ?_⟩
        obtain ⟨globals, message, recorded, excuse⟩ := visit.excused rfl
        refine ⟨globals, message, ?_, excuse⟩
        rw [moves.reserved.globals, (back visited).1, recorded]
      · have rest := induction status visited failed (whole.ranged ranged)
          (whole.inRange located inRange)
          ((back visited).2.trans (visit.fresh failed)) ended
        exact { rest with preserves := whole.trans rest.preserves }

/-- A tick of a node that can be reached fails with an excuse or not at all. -/
theorem PassM.sound_of_tick {fuel : Nat} {status : Status}
    {before after : Pass α} (located : setting.forest.Located tree node)
    (reaches : setting.forest.Reaches id tree.id)
    (ranged : setting.forest.Ranged before.board)
    (fresh : before.exhausted = false)
    (ended : tick setting fuel tree node before = some (status, after)) :
    Sound setting id (status = .error) before after := by
  induction fuel generalizing tree node before status after with
  | zero => cases ended
  | succ fuel induction =>
      by_cases covered : ∀ budget, setting.config.maxStepsPerTick = some budget →
          before.steps < budget.toNat
      · obtain ⟨script, body, _, failFast, runs, rfl⟩ :=
          script_of_tick covered ended
        obtain ⟨_, _, around⟩ := brackets setting tree node status before body
        have enters := enters_enter setting tree node before
        have begins := Preserves.of_enters isScoped located
          around.entering.bound enters
        -- what was running is in range, and what is opened starts with positions
        have inRange := enters.inRange fun running =>
          ranged located (Blackboard.isRunning_of_stateFor tree running)
        have update := failFast.sound wellFormed isScoped filled induction
          located reaches (begins.ranged ranged) inRange
          (around.entering.exhausted.trans fresh) runs
        have ends := Preserves.of_leaves isScoped located around.leaving.bound
          (leaves_leave setting tree node status body)
          (update.preserves.inRange located inRange)
        exact
          { preserves := (begins.trans update.preserves).trans ends
            fresh := fun good =>
              around.leaving.exhausted.trans (update.fresh good)
            excused := fun failed =>
              (update.excused failed).of_reserved around.leaving }
      · push Not at covered
        obtain ⟨budget, limited, exceeded⟩ := covered
        have exceeded : budget.toNat ≤ before.steps := by omega
        rw [tick_of_exceeded limited exceeded fresh] at ended
        cases ended
        exact ⟨.of_states rfl rfl, fun good => absurd rfl good, fun _ =>
          ⟨_, _, rfl, .exhausted limited ⟨tree, node, located, rfl⟩ reaches⟩⟩

end Sound

end BehaviorTree
