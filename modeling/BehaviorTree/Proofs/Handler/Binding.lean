import BehaviorTree.Proofs.Forest.Walking
import BehaviorTree.Proofs.Handler.Failing
import BehaviorTree.Proofs.Handler.Seeding

/-!
# What setup binds

Setup fails if no tree can be chosen, if the tree takes no such agent or if a
node that the agent can reach lacks its child, and then it changes nothing.
Otherwise every node that the agent can reach has a state that fits it and
agrees with its configuration; a state that was there and fits goes on from the
progress that it had.
-/

namespace BehaviorTree

theorem Forest.select_byId (forest : Forest) (id : TreeId) :
    forest.select (.byId id) = forest.get? id := by
  rw [select, resolve]
  split
  · rfl
  · next absent =>
      rw [get?, Std.ExtTreeMap.getElem?_eq_none
        (by simpa [← Std.ExtTreeMap.contains_iff_mem] using absent)]
      rfl

namespace Handler

variable {α : Type} [Agent α] {forest : Forest} {handler : Handler α}
  {agent : α} {selector : Option TreeSelector} {tree : Tree}

/-- The tree that is asked for: the given one, else the agent's default, else
the one already bound. -/
def requested (handler : Handler α) (agent : α)
    (selector : Option TreeSelector) : Option TreeSelector :=
  selector <|> Agent.defaultTree agent <|> handler.tree.map .byId

/-- The tree to which the handler is to be bound. -/
def choice (handler : Handler α) (forest : Forest) (agent : α)
    (selector : Option TreeSelector) : Option Tree :=
  (handler.requested agent selector).bind forest.select

theorem chooseTree_eq_ok_iff :
    handler.chooseTree forest agent selector = .ok tree ↔
      handler.choice forest agent selector = some tree := by
  rw [chooseTree, choice, requested]
  cases selector with
  | some given => cases selected : forest.select given <;> simp [selected]
  | none =>
      cases Agent.defaultTree agent with
      | some asked => cases selected : forest.select asked <;> simp [selected]
      | none =>
          cases handler.tree with
          | none => simp
          | some id =>
              cases selected : forest.get? id <;>
                simp [selected, forest.select_byId]

theorem checkKind_eq_ok_iff :
    checkKind tree agent = .ok () ↔
      ∀ kind ∈ tree.agentKind, kind = Agent.kind agent := by
  rw [checkKind]
  cases tree.agentKind with
  | none => simp
  | some expected =>
      dsimp only
      split <;> simp [*]

/-- A walk passes if every tree on it does that was not checked before. -/
theorem validateTrees_eq_ok_iff {checked : List TreeId} {walk : List NodeRef} :
    validateTrees forest checked walk = .ok () ↔
      ∀ ref ∈ walk, ref.tree ∉ checked →
        ∀ tree ∈ forest.get? ref.tree, tree.validate = .ok () := by
  induction walk generalizing checked with
  | nil => simp [validateTrees]
  | cons ref rest induction =>
      -- whether the tree counts as checked makes no difference once it passed
      have skips : (∀ tree ∈ forest.get? ref.tree, tree.validate = .ok ()) →
          (validateTrees forest (ref.tree :: checked) rest = .ok () ↔
            ∀ other ∈ ref :: rest, other.tree ∉ checked →
              ∀ tree ∈ forest.get? other.tree, tree.validate = .ok ()) := by
        intro passes
        rw [induction]
        constructor
        · intro later other member unchecked
          by_cases same : other.tree = ref.tree
          · rwa [same]
          · rcases List.mem_cons.mp member with rfl | member
            · exact passes
            · exact later other member fun listed =>
                (List.mem_cons.mp listed).elim same unchecked
        · intro every other member unchecked
          exact every other (List.mem_cons_of_mem _ member) fun listed =>
            unchecked (List.mem_cons_of_mem _ listed)
      rw [validateTrees]
      split
      · next listed =>
          rw [induction]
          constructor
          · intro later other member unchecked
            rcases List.mem_cons.mp member with rfl | member
            · exact absurd listed unchecked
            · exact later other member unchecked
          · intro every other member
            exact every other (List.mem_cons_of_mem _ member)
      · next unlisted =>
          split
          · next absent =>
              apply skips
              intro tree registered
              rw [absent] at registered
              cases registered
          · next tree registered =>
              split
              · next cause invalid =>
                  refine ⟨nofun, fun every => ?_⟩
                  have valid :=
                    every ref List.mem_cons_self unlisted tree registered
                  rw [invalid] at valid
                  cases valid
              · next valid =>
                  apply skips
                  intro other isOther
                  rw [registered] at isOther
                  cases isOther
                  exact valid

theorem validateTrees_walkFollowing (wellFormed : forest.WellFormed)
    (registered : forest.get? tree.id = some tree) :
    validateTrees forest [] (forest.walkFollowing tree.id) = .ok () ↔
      forest.Filled tree.id := by
  rw [validateTrees_eq_ok_iff]
  constructor
  · intro valid other node located reaches single
    have met := (Forest.mem_walkFollowing wellFormed registered).mpr
      ⟨⟨other, node, located, rfl⟩, reaches⟩
    have passes := valid _ met List.not_mem_nil other located.inForest
    exact ((wellFormed.trees located.inForest).validate_eq_ok_iff.mp passes) _ _
      located.inTree single
  · intro filled ref met _ other isOther
    obtain ⟨_, reaches⟩ :=
      (Forest.mem_walkFollowing wellFormed registered).mp met
    rw [(wellFormed.trees isOther).validate_eq_ok_iff]
    intro hash node inTree
    apply filled (wellFormed.located_of_registered isOther inTree)
    rwa [wellFormed.keyed isOther]

theorem registered_choice (wellFormed : forest.WellFormed)
    (chosen : handler.choice forest agent selector = some tree) :
    forest.get? tree.id = some tree := by
  obtain ⟨_, _, selected⟩ := Option.bind_eq_some_iff.mp chosen
  exact (wellFormed.located_target selected).inForest

/-- The tree to bind is the one asked for, if it takes the agent and no node
that the agent can reach lacks its child. -/
theorem approve_eq_ok_iff (wellFormed : forest.WellFormed) :
    handler.approve forest agent selector = .ok tree ↔
      handler.choice forest agent selector = some tree ∧
      (∀ kind ∈ tree.agentKind, kind = Agent.kind agent) ∧
      forest.Filled tree.id := by
  have checks : handler.approve forest agent selector = .ok tree ↔
      handler.chooseTree forest agent selector = .ok tree ∧
      checkKind tree agent = .ok () ∧
      validateTrees forest [] (forest.walkFollowing tree.id) = .ok () := by
    simp only [approve, bind, Except.bind]
    cases handler.chooseTree forest agent selector with
    | error cause => simp
    | ok chosen =>
        cases kind : checkKind chosen agent <;>
          cases valid :
            validateTrees forest [] (forest.walkFollowing chosen.id) <;>
          simp only [pure, Except.pure, Except.ok.injEq] <;>
          grind
  rw [checks, chooseTree_eq_ok_iff, checkKind_eq_ok_iff]
  apply and_congr_right
  intro chosen
  apply and_congr_right
  intro _
  exact validateTrees_walkFollowing wellFormed (registered_choice wellFormed chosen)

end Handler

namespace Handler

variable {α : Type} {forest : Forest} {handler : Handler α} {tree : Tree}
  {override : Bool} {previous : Blackboard}

/-- The handler goes on with the blackboard that it has. -/
structure Continues (handler : Handler α) (id : TreeId) (agent : UInt64)
    (override : Bool) (previous : Blackboard) : Prop where
  holds : handler.blackboard = some previous
  kept : override = false
  boundTo : previous.tree = id
  boundFor : previous.agent = agent

/-- The tracer that a new blackboard takes over. -/
def heirloom (handler : Handler α) : Tracer :=
  match handler.blackboard with
  | some board => board.tracer
  | none => if handler.config.recordTrace then .recording else {}

theorem bindBlackboard_of_continues {id : TreeId} {agent : UInt64}
    (continues : handler.Continues id agent override previous) :
    handler.bindBlackboard id agent override = previous.clearRunning := by
  rw [bindBlackboard, continues.holds]
  dsimp only
  rw [if_pos]
  simp [continues.kept, continues.boundTo, continues.boundFor]

theorem bindBlackboard_of_not_continues {id : TreeId} {agent : UInt64}
    (anew : ∀ previous, ¬ handler.Continues id agent override previous) :
    handler.bindBlackboard id agent override =
      .new id agent handler.config.seed handler.heirloom := by
  rw [bindBlackboard, heirloom]
  cases holds : handler.blackboard with
  | none => rfl
  | some board =>
      dsimp only
      rw [if_neg]
      intro same
      simp only [Bool.and_eq_true, Bool.not_eq_true', decide_eq_true_eq] at same
      exact anew board ⟨holds, same.1.1, same.1.2, same.2⟩

theorem served_bindBlackboard (handler : Handler α) (id : TreeId)
    (agent : UInt64) (override : Bool) :
    (handler.bindBlackboard id agent override).tree = id ∧
      (handler.bindBlackboard id agent override).agent = agent := by
  by_cases continues :
      ∃ previous, handler.Continues id agent override previous
  · obtain ⟨previous, continues⟩ := continues
    rw [bindBlackboard_of_continues continues]
    exact ⟨continues.boundTo, continues.boundFor⟩
  · rw [bindBlackboard_of_not_continues (not_exists.mp continues)]
    exact ⟨rfl, rfl⟩

variable [Agent α] {agent : α} {selector : Option TreeSelector}

/-- Why a handler cannot be bound. -/
inductive Hindered (forest : Forest) (handler : Handler α) (agent : α)
    (selector : Option TreeSelector) : Prop where
  | noTree : handler.choice forest agent selector = none →
      Hindered forest handler agent selector
  | stranger {tree : Tree} {kind : String} :
      handler.choice forest agent selector = some tree →
      tree.agentKind = some kind →
      kind ≠ Agent.kind agent →
      Hindered forest handler agent selector
  | unfilled {tree other : Tree} {node : Node} :
      handler.choice forest agent selector = some tree →
      forest.Reaches tree.id other.id →
      forest.Located other node →
      node.arity = .single →
      node.children = [] →
      Hindered forest handler agent selector

/-- A blackboard as setup leaves it. -/
structure Bound (forest : Forest) (tree : Tree) (agent : α)
    (board : Blackboard) : Prop where
  boundTo : board.tree = tree.id
  boundFor : board.agent = Agent.stableId agent
  idle : board.Idle
  seeded : ∀ {other : Tree} {node : Node}, forest.Located other node →
    forest.Reaches tree.id other.id → ∃ state,
      board.states[node.hash]? = some state ∧
      state.kind.fits node.kind = true ∧ state.kind.Configured node.kind

/-- A blackboard on which nothing has run, but for what was traced. -/
structure Afresh (forest : Forest) (handler : Handler α) (tree : Tree)
    (agent : α) (board : Blackboard) : Prop where
  globals : board.globals = {}
  tick : board.tick = 0
  stream : board.stream =
    .ofSeed (deriveSeed handler.config.seed (Agent.stableId agent) tree.id.value)
  tracer : board.tracer = handler.heirloom
  seeded : ∀ {other : Tree} {node : Node}, forest.Located other node →
    forest.Reaches tree.id other.id →
    board.states[node.hash]? = some (.forNode other node)
  nothingElse : ∀ {hash : NodeHash},
    (∀ {other : Tree} {node : Node}, forest.Located other node →
      forest.Reaches tree.id other.id → node.hash ≠ hash) →
    board.states[hash]? = none

/-- A blackboard that goes on from another one: what fits its node is kept,
apart from configuration and the running flag. -/
structure Resumed (forest : Forest) (tree : Tree)
    (previous board : Blackboard) : Prop where
  globals : board.globals = previous.globals
  tick : board.tick = previous.tick
  stream : board.stream = previous.stream
  tracer : board.tracer = previous.tracer
  kept : ∀ {other : Tree} {node : Node} {state : NodeState},
    forest.Located other node → forest.Reaches tree.id other.id →
    previous.states[node.hash]? = some state →
    state.kind.fits node.kind = true → ∃ kind,
      board.states[node.hash]? = some { state with running := false, kind } ∧
      state.kind.Resumes kind
  reseeded : ∀ {other : Tree} {node : Node}, forest.Located other node →
    forest.Reaches tree.id other.id →
    (∀ state ∈ previous.states[node.hash]?, state.kind.fits node.kind = false) →
    board.states[node.hash]? = some (.forNode other node)
  others : ∀ {hash : NodeHash},
    (∀ {other : Tree} {node : Node}, forest.Located other node →
      forest.Reaches tree.id other.id → node.hash ≠ hash) →
    board.states[hash]? =
      previous.states[hash]?.map fun state => { state with running := false }

section Seeding

variable (wellFormed : forest.WellFormed)
  (registered : forest.get? tree.id = some tree)
include wellFormed registered

theorem states_boundBoard (isScoped : forest.Scoped) {other : Tree} {node : Node}
    (located : forest.Located other node)
    (reaches : forest.Reaches tree.id other.id) :
    (handler.boundBoard forest tree agent override).states[node.hash]? =
      some ((handler.bindBlackboard tree.id (Agent.stableId agent) override).seeded
        other node override) := by
  refine states_seedStates_of_mem isScoped
    (Forest.walkFollowing_nodup wellFormed registered) (fun ref met => ?_) located
    ((Forest.mem_walkFollowing wellFormed registered).mpr
      ⟨⟨other, node, located, rfl⟩, reaches⟩)
  exact ((Forest.mem_walkFollowing wellFormed registered).mp met).1

theorem states_boundBoard_elsewhere {hash : NodeHash}
    (elsewhere : ∀ {other : Tree} {node : Node}, forest.Located other node →
      forest.Reaches tree.id other.id → node.hash ≠ hash) :
    (handler.boundBoard forest tree agent override).states[hash]? =
      (handler.bindBlackboard tree.id (Agent.stableId agent)
        override).states[hash]? := by
  refine states_seedStates_of_not_mem (fun ref met => ?_) fun ref met => ?_
  · exact ((Forest.mem_walkFollowing wellFormed registered).mp met).1
  · obtain ⟨⟨other, node, located, rfl⟩, reaches⟩ :=
      (Forest.mem_walkFollowing wellFormed registered).mp met
    exact elsewhere located reaches

end Seeding

theorem boundBoard_eq_with (handler : Handler α) (forest : Forest) (tree : Tree)
    (agent : α) (override : Bool) :
    ∃ states, handler.boundBoard forest tree agent override =
      { handler.bindBlackboard tree.id (Agent.stableId agent) override with
        states } :=
  seedStates_eq_with forest override _ _

theorem bound_boundBoard (wellFormed : forest.WellFormed)
    (isScoped : forest.Scoped) (registered : forest.get? tree.id = some tree) :
    Bound forest tree agent (handler.boundBoard forest tree agent override) := by
  obtain ⟨states, written⟩ := handler.boundBoard_eq_with forest tree agent override
  obtain ⟨sameTree, sameAgent⟩ :=
    handler.served_bindBlackboard tree.id (Agent.stableId agent) override
  refine ⟨?_, ?_, handler.idle_boundBoard .., ?_⟩
  · rw [written]
    exact sameTree
  · rw [written]
    exact sameAgent
  · intro other node located reaches
    exact ⟨_, states_boundBoard wellFormed registered isScoped located reaches,
      Blackboard.fits_seeded _ _ _ _, Blackboard.configured_seeded _ _ _ _⟩

theorem afresh_boundBoard (wellFormed : forest.WellFormed)
    (isScoped : forest.Scoped) (registered : forest.get? tree.id = some tree)
    (anew : ∀ previous,
      ¬ handler.Continues tree.id (Agent.stableId agent) override previous) :
    Afresh forest handler tree agent
      (handler.boundBoard forest tree agent override) := by
  obtain ⟨states, written⟩ := handler.boundBoard_eq_with forest tree agent override
  have isNew := bindBlackboard_of_not_continues anew
  have stateless : ∀ hash : NodeHash,
      (handler.bindBlackboard tree.id (Agent.stableId agent)
        override).states[hash]? = none := by
    intro hash
    rw [isNew]
    exact Std.ExtTreeMap.getElem?_empty
  refine ⟨?_, ?_, ?_, ?_, ?_, ?_⟩
  · rw [written, isNew]
    rfl
  · rw [written, isNew]
    rfl
  · rw [written, isNew]
    rfl
  · rw [written, isNew]
    rfl
  · intro other node located reaches
    rw [states_boundBoard wellFormed registered isScoped located reaches,
      Blackboard.seeded_of_absent (stateless node.hash)]
  · intro hash elsewhere
    rw [states_boundBoard_elsewhere wellFormed registered elsewhere, stateless]

theorem resumed_boundBoard (wellFormed : forest.WellFormed)
    (isScoped : forest.Scoped) (registered : forest.get? tree.id = some tree)
    (continues :
      handler.Continues tree.id (Agent.stableId agent) override previous) :
    Resumed forest tree previous
      (handler.boundBoard forest tree agent override) := by
  obtain ⟨states, written⟩ := handler.boundBoard_eq_with forest tree agent override
  have isOld := bindBlackboard_of_continues continues
  have seeded : ∀ {other : Tree} {node : Node}, forest.Located other node →
      forest.Reaches tree.id other.id →
      (handler.boundBoard forest tree agent override).states[node.hash]? =
        some { previous.stateFor other node with
          running := false
          kind := NodeState.syncKind (previous.stateFor other node).kind node.kind } := by
    intro other node located reaches
    rw [states_boundBoard wellFormed registered isScoped located reaches, isOld,
      continues.kept, Blackboard.seeded, if_neg Bool.false_ne_true,
      Blackboard.stateFor_clearRunning, NodeState.syncConfig]
  refine ⟨?_, ?_, ?_, ?_, ?_, ?_, ?_⟩
  · rw [written, isOld]
    rfl
  · rw [written, isOld]
    rfl
  · rw [written, isOld]
    rfl
  · rw [written, isOld]
    rfl
  · intro other node state located reaches present fits
    rw [seeded located reaches, Blackboard.stateFor_eq other present fits]
    exact ⟨_, rfl, NodeState.resumes_syncKind _ _⟩
  · intro other node located reaches misfits
    rw [seeded located reaches, Blackboard.stateFor_of_misfit other misfits]
    exact congrArg some (NodeState.syncConfig_forNode other node)
  · intro hash elsewhere
    rw [states_boundBoard_elsewhere wellFormed registered elsewhere, isOld,
      Blackboard.states_clearRunning]

/-- The checks turn away exactly the handlers that are hindered. -/
theorem hindered_iff (wellFormed : forest.WellFormed) :
    Hindered forest handler agent selector ↔
      ∀ tree, handler.approve forest agent selector ≠ .ok tree := by
  constructor
  · intro hindered tree approved
    obtain ⟨chosen, takes, filled⟩ := (approve_eq_ok_iff wellFormed).mp approved
    cases hindered with
    | noTree absent =>
        rw [absent] at chosen
        cases chosen
    | stranger other isOf differs =>
        rw [other] at chosen
        cases chosen
        exact differs (takes _ isOf)
    | unfilled other reaches located single empty =>
        rw [other] at chosen
        cases chosen
        exact filled located reaches single empty
  · intro refused
    cases chosen : handler.choice forest agent selector with
    | none => exact .noTree chosen
    | some tree =>
        by_contra free
        refine refused tree ((approve_eq_ok_iff wellFormed).mpr
          ⟨chosen, fun kind isOf => ?_, fun _ _ located reaches single empty =>
            free (.unfilled chosen reaches located single empty)⟩)
        by_contra differs
        exact free (.stranger chosen isOf differs)

/-- Setup fails for one of three reasons, and then the handler is unchanged.
Otherwise it binds the chosen tree and seeds every node that can be reached: it
goes on with the blackboard that serves the same tree and agent, unless it is
overridden, and else starts afresh. -/
theorem setup_binds (wellFormed : forest.WellFormed) (isScoped : forest.Scoped)
    (handler : Handler α) (agent : α) (selector : Option TreeSelector)
    (override : Bool) :
    ((∃ cause after, (setup forest agent selector override).run handler =
        .error cause after) ↔ Hindered forest handler agent selector) ∧
    (∀ cause after, (setup forest agent selector override).run handler =
      .error cause after → after = handler) ∧
    (∀ id after, (setup forest agent selector override).run handler =
      .ok id after → ∃ tree board,
        handler.choice forest agent selector = some tree ∧ id = tree.id ∧
        after = { handler with blackboard := some board } ∧
        Bound forest tree agent board ∧
        (∀ previous,
          handler.Continues tree.id (Agent.stableId agent) override previous →
          Resumed forest tree previous board) ∧
        ((∀ previous,
          ¬ handler.Continues tree.id (Agent.stableId agent) override previous) →
          Afresh forest handler tree agent board)) := by
  rw [setup_eq]
  refine ⟨?_, ?_, ?_⟩
  · rw [hindered_iff wellFormed]
    cases handler.approve forest agent selector <;> simp
  · intro cause after failed
    split at failed
    · cases failed
      rfl
    · cases failed
  · intro id after done
    split at done
    · cases done
    · next tree approved =>
        cases done
        have chosen := ((approve_eq_ok_iff wellFormed).mp approved).1
        have registered := registered_choice wellFormed chosen
        exact ⟨tree, _, chosen, rfl, rfl,
          bound_boundBoard wellFormed isScoped registered,
          fun _ => resumed_boundBoard wellFormed isScoped registered,
          afresh_boundBoard wellFormed isScoped registered⟩

/-- Two things were bought when the shop sold five. -/
def bought : NodeState := { (default : NodeState) with kind := .limiter 5 3 }

def shopping : Blackboard :=
  (Blackboard.new ⟨1⟩ 0 0 {}).setState ⟨"buy-2"⟩ bought

def shopper : Handler UInt64 :=
  { behaviors := {}, blackboard := some shopping }

/-- Now that the shop sells three things, one is left. -/
theorem shopper_rebound :
    ∃ (forest : Forest) (board : Blackboard) (state : NodeState),
      (setup forest (0 : UInt64) none false).run shopper =
        .ok ⟨1⟩ { shopper with blackboard := some board } ∧
      board.Idle ∧
      board.states[(⟨"buy-2"⟩ : NodeHash)]? = some state ∧
      state.kind = .limiter 3 1 := by
  have checked : (Grove.run [] errandSteps).any (fun grove =>
      let forest := Forest.ofTrees grove
      let buy : NodeRef := ⟨⟨2⟩, ⟨"buy-2"⟩⟩
      decide forest.Scoped && decide (buy ∈ forest.walkFollowing ⟨1⟩) &&
      (forest.node? buy).any (·.kind = .limiter 3) &&
      (SetupM.outcome ((setup forest (0 : UInt64) none false).run shopper)).any
        (·.1 = ⟨1⟩)) = true := by
    decide +kernel
  obtain ⟨grove, built, passed⟩ := (Option.any_eq_true _ _).mp checked
  have wellFormed : (Forest.ofTrees grove).WellFormed := .of_steps built
  simp only [Bool.and_eq_true, decide_eq_true_eq] at passed
  obtain ⟨⟨⟨isScoped, met⟩, sells⟩, passed⟩ := passed
  obtain ⟨⟨id, after⟩, done, passed⟩ := (Option.any_eq_true _ _).mp passed
  rw [SetupM.outcome_eq_some_iff] at done
  have isFirst : id = ⟨1⟩ := of_decide_eq_true passed
  obtain ⟨tree, board, chosen, isTree, rfl, bound, resumes, _⟩ :=
    (setup_binds wellFormed isScoped shopper (0 : UInt64) none false).2.2 id
      after done
  have registered := registered_choice wellFormed chosen
  rw [← isFirst, isTree, Forest.mem_walkFollowing wellFormed registered]
    at met
  obtain ⟨⟨other, node, located, sameRef⟩, reaches⟩ := met
  rw [← sameRef] at reaches
  rw [← sameRef, Forest.node?_refTo located] at sells
  have sellsThree : node.kind = .limiter 3 := of_decide_eq_true sells
  have sameHash : node.hash = ⟨"buy-2"⟩ := congrArg NodeRef.hash sameRef
  have continues :
      shopper.Continues tree.id (Agent.stableId (0 : UInt64)) false shopping :=
    ⟨rfl, rfl, isFirst.symm.trans isTree, rfl⟩
  have isBought : shopping.states[node.hash]? = some bought := by
    rw [sameHash]
    rfl
  have fits : bought.kind.fits node.kind = true := by
    rw [sellsThree]
    rfl
  obtain ⟨kind, present, resumed⟩ :=
    (resumes _ continues).kept located reaches isBought fits
  obtain ⟨state, seeded, _, configured⟩ := bound.seeded located reaches
  rw [present] at seeded
  cases seeded
  obtain ⟨limit, left, isKind, _, spent⟩ := resumed
  dsimp only at configured
  rw [isKind, sellsThree] at configured
  have isThree : limit = 3 := (NodeKind.limiter.inj configured).symm
  have isOne : left = 1 := by
    apply UInt32.toNat_inj.mp
    rw [spent (by rw [isThree]; decide), isThree]
    rfl
  rw [sameHash] at present
  refine ⟨_, board, _, isFirst ▸ done, bound.idle, present, ?_⟩
  rw [isKind, isThree, isOne]

end Handler

end BehaviorTree
