import BehaviorTree.Proofs.Pass.Ticking

/-!
# Abandoning nodes

Before the root is ticked, the nodes of a list that are still flagged are
closed.  Each closing clears one flag, so a node is closed at most once.
-/

namespace BehaviorTree

/-- The reference is to a node of the forest. -/
def Forest.Knows (forest : Forest) (ref : NodeRef) : Prop :=
  ∃ tree node, forest.Located tree node ∧ tree.refTo node = ref

namespace Pass

/-- What the journal tells of nodes that are abandoned. -/
def sweep (refs : List NodeRef) : List Activity :=
  refs.flatMap fun ref => [.abandoned ref, .closed ref]

variable {α : Type}

/-- The nodes `swept` of a list are closed: those that are still flagged. -/
structure Abandons (forest : Forest) (refs swept : List NodeRef)
    (before after : Pass α) : Prop where
  steps : after.steps = before.steps
  depth : after.depth = before.depth
  runningNow : after.board.runningNow = before.board.runningNow
  runningPre : after.board.runningPre = before.board.runningPre
  log : after.log = before.log ++ sweep swept
  elsewhere : ∀ {hash : NodeHash}, (∀ ref ∈ swept, ref.hash ≠ hash) →
    after.board.states[hash]? = before.board.states[hash]?
  cleared : ∀ ref ∈ swept, after.board.isRunning ref.hash = false
  among : swept.Sublist refs
  flagged : ∀ ref ∈ swept,
    forest.Knows ref ∧ before.board.isRunning ref.hash = true
  complete : ∀ ref ∈ refs, forest.Knows ref →
    before.board.isRunning ref.hash = true →
    ∃ other ∈ swept, other.hash = ref.hash

/-- Closing a flagged node, and then the others. -/
theorem Abandons.cons {forest : Forest} {tree : Tree} {node : Node}
    {state : NodeState} {rest swept : List NodeRef} {before middle after : Pass α}
    (located : forest.Located tree node)
    (flagged : before.board.isRunning node.hash = true)
    (closes : Writes tree node
      [.abandoned (tree.refTo node), .closed (tree.refTo node)] state before
      middle)
    (unflagged : state.running = false)
    (abandons : Abandons forest rest swept middle after) :
    Abandons forest (tree.refTo node :: rest) (tree.refTo node :: swept) before
      after := by
  have cleared : middle.board.isRunning node.hash = false := by
    rw [closes.isRunning, unflagged]
  have apart : ∀ other ∈ swept, other.hash ≠ node.hash := by
    intro other member same
    have stillFlagged := (abandons.flagged other member).2
    rw [same, cleared] at stillFlagged
    cases stillFlagged
  have kept : ∀ {hash : NodeHash}, hash ≠ node.hash →
      middle.board.isRunning hash = before.board.isRunning hash := by
    intro hash different
    rw [Blackboard.isRunning, closes.elsewhere different]
    rfl
  refine
    { steps := abandons.steps.trans closes.steps
      depth := abandons.depth.trans closes.depth
      runningNow := abandons.runningNow.trans closes.runningNow
      runningPre := abandons.runningPre.trans closes.runningPre
      log := ?_
      elsewhere := ?_
      cleared := ?_
      among := abandons.among.cons_cons _
      flagged := ?_
      complete := ?_ }
  · rw [abandons.log, closes.log, List.append_assoc]
    rfl
  · intro hash absent
    have different : node.hash ≠ hash := absent _ List.mem_cons_self
    rw [abandons.elsewhere fun other member =>
      absent other (List.mem_cons_of_mem _ member),
      closes.elsewhere (Ne.symm different)]
  · intro other member
    rcases List.mem_cons.mp member with rfl | member
    · change after.board.isRunning node.hash = false
      rw [Blackboard.isRunning, abandons.elsewhere apart]
      exact cleared
    · exact abandons.cleared other member
  · intro other member
    rcases List.mem_cons.mp member with rfl | member
    · exact ⟨⟨tree, node, located, rfl⟩, flagged⟩
    · obtain ⟨known, stillFlagged⟩ := abandons.flagged other member
      rw [kept (apart other member)] at stillFlagged
      exact ⟨known, stillFlagged⟩
  · intro other member known isFlagged
    by_cases same : other.hash = node.hash
    · exact ⟨tree.refTo node, List.mem_cons_self, same.symm⟩
    rcases List.mem_cons.mp member with rfl | member
    · exact absurd rfl same
    rw [← kept same] at isFlagged
    obtain ⟨found, isSwept, sameHash⟩ :=
      abandons.complete other member known isFlagged
    exact ⟨found, List.mem_cons_of_mem _ isSwept, sameHash⟩

variable {setting : Setting α}

theorem abandonEach_of_flagged {tree : Tree} {node : Node}
    (located : setting.forest.Located tree node) {pass : Pass α}
    (flagged : pass.board.isRunning node.hash = true) (rest : List NodeRef) :
    pass.abandonEach setting (tree.refTo node :: rest) =
      (pass.abandonNode setting.config tree node).abandonEach setting rest := by
  rw [abandonEach]
  simp [Tree.refTo, located.inForest, located.inTree, flagged]

variable (wellFormed : setting.forest.WellFormed)
include wellFormed

theorem abandonEach_of_unflagged {ref : NodeRef} {pass : Pass α}
    (unflagged : setting.forest.Knows ref →
      pass.board.isRunning ref.hash = false) (rest : List NodeRef) :
    pass.abandonEach setting (ref :: rest) = pass.abandonEach setting rest := by
  rw [abandonEach]
  cases inForest : setting.forest.get? ref.tree with
  | none => rfl
  | some tree =>
      dsimp only
      cases inTree : tree.nodes[ref.hash]? with
      | none => rfl
      | some node =>
          have sameTree : tree.id = ref.tree := wellFormed.keyed inForest
          have sameHash : node.hash = ref.hash :=
            (wellFormed.trees inForest).keyed inTree
          have known : setting.forest.Knows ref := by
            refine ⟨tree, node,
              wellFormed.located_of_registered inForest inTree, ?_⟩
            rw [Tree.refTo, sameTree, sameHash]
          simp [unflagged known]

/-- What closing a flagged node keeps, closing those of a list does. -/
theorem abandonEach_keeps (holds : Pass α → Prop)
    (closes : ∀ {pass : Pass α} {tree : Tree} {node : Node},
      setting.forest.Located tree node → pass.board.isRunning node.hash = true →
      holds pass → holds (pass.abandonNode setting.config tree node))
    (refs : List NodeRef) {pass : Pass α} (held : holds pass) :
    holds (pass.abandonEach setting refs) := by
  induction refs generalizing pass with
  | nil => exact held
  | cons ref rest induction =>
      by_cases flagged : setting.forest.Knows ref ∧
          pass.board.isRunning ref.hash = true
      · obtain ⟨⟨tree, node, located, rfl⟩, flagged⟩ := flagged
        rw [abandonEach_of_flagged located flagged]
        exact induction (closes located flagged held)
      · have unflagged : setting.forest.Knows ref →
            pass.board.isRunning ref.hash = false :=
          fun known => by simpa using not_and.mp flagged known
        rw [abandonEach_of_unflagged wellFormed unflagged]
        exact induction held

/-- The nodes of a list that are flagged are closed, and no others. -/
theorem abandons_abandonEach (refs : List NodeRef) (pass : Pass α) :
    ∃ swept, Abandons setting.forest refs swept pass
      (pass.abandonEach setting refs) := by
  induction refs generalizing pass with
  | nil =>
      refine ⟨[], ?_⟩
      constructor <;> simp [abandonEach, sweep]
  | cons ref rest induction =>
      by_cases flagged : setting.forest.Knows ref ∧
          pass.board.isRunning ref.hash = true
      · obtain ⟨⟨tree, node, located, rfl⟩, flagged⟩ := flagged
        rw [abandonEach_of_flagged located flagged]
        obtain ⟨swept, abandons⟩ :=
          induction (pass.abandonNode setting.config tree node)
        exact ⟨tree.refTo node :: swept, abandons.cons located flagged
          (pass.writes_abandonNode setting.config tree node) rfl⟩
      · have unflagged : setting.forest.Knows ref →
            pass.board.isRunning ref.hash = false := by
          intro known
          cases isFlagged : pass.board.isRunning ref.hash with
          | false => rfl
          | true => exact absurd ⟨known, isFlagged⟩ flagged
        rw [abandonEach_of_unflagged wellFormed unflagged]
        obtain ⟨swept, abandons⟩ := induction pass
        refine ⟨swept, { abandons with
          among := abandons.among.cons _
          complete := ?_ }⟩
        intro other member known isFlagged
        rcases List.mem_cons.mp member with rfl | member
        · rw [unflagged known] at isFlagged
          cases isFlagged
        · exact abandons.complete other member known isFlagged

end Pass

end BehaviorTree
