import BehaviorTree.Proofs.Handler.History
import BehaviorTree.Proofs.Handler.Soundness
import BehaviorTree.Proofs.Pass.Limiting

/-!
# Uses of a Limiter in a history

A history may give a Limiter other limits, and set up and tick its handler.  The
tab of the Limiter is read off the journals of the ticks and is begun anew when
the handler gets a new blackboard.  At any time the Limiter has left what is due
by its tab, unless a refresh raised a limit that did not cover the uses so far.
-/

namespace BehaviorTree

variable {α : Type} {limiter child : NodeRef}

/-- A Limiter and its first child are registered. -/
def Tree.Gated (tree : Tree) (limiter child : NodeHash) : Prop :=
  ∃ node below configured, tree.nodes[limiter]? = some node ∧
    node.kind = .limiter configured ∧ node.children[0]? = some child ∧
    tree.nodes[child]? = some below

theorem Tree.Gated.updateNode {tree : Tree} {limiter child : NodeHash}
    (gated : tree.Gated limiter child) (limit : UInt32) :
    Gated (tree.updateNode limiter fun node => { node with kind := .limiter limit })
      limiter child := by
  obtain ⟨node, below, _, isNode, _, isFirst, isBelow⟩ := gated
  refine ⟨{ node with kind := .limiter limit },
    if child = limiter then { below with kind := .limiter limit } else below,
    limit, ?_, rfl, isFirst, ?_⟩
  · rw [nodes_updateNode, if_pos rfl, isNode, Option.map_some]
  · rw [nodes_updateNode, isBelow, Option.map_some]
    exact (apply_ite some _ _ _).symm

namespace Forest

/-- The limit of a Limiter. -/
def limitAt (forest : Forest) (ref : NodeRef) : Option UInt32 :=
  (forest.node? ref).bind fun node =>
    match node.kind with
    | .limiter limit => some limit
    | _ => none

/-- A Limiter and its child, with the limit that is configured. -/
def gate (forest : Forest) (limiter child : NodeRef) : Gate :=
  { limiter, child, limit := ((forest.limitAt limiter).getD 0).toNat }

def Gated (limiter child : NodeRef) (forest : Forest) : Prop :=
  child.tree = limiter.tree ∧ ∃ tree, forest.get? limiter.tree = some tree ∧
    tree.id = limiter.tree ∧ tree.Gated limiter.hash child.hash

theorem gated_of_located {forest : Forest} {home : Tree} {node below : Node}
    {configured : UInt32} (wellFormed : forest.WellFormed)
    (located : forest.Located home node)
    (isLimiter : node.kind = .limiter configured)
    (isChild : home.childAt node 0 = some below) :
    forest.Gated (home.refTo node) (home.refTo below) := by
  refine ⟨rfl, home, located.inForest, rfl, node, below, configured,
    located.inTree, isLimiter, ?_,
    (wellFormed.located_childAt located isChild).inTree⟩
  obtain ⟨hash, isFirst, registered⟩ := Option.bind_eq_some_iff.mp isChild
  have same : below.hash = hash :=
    (wellFormed.trees located.inForest).keyed registered
  rw [isFirst, ← same]
  rfl

theorem Gated.stands {forest : Forest} (gated : forest.Gated limiter child)
    (wellFormed : forest.WellFormed) :
    ∃ home node below,
      (forest.gate limiter child).Stands forest home node below := by
  obtain ⟨sameTree, home, registered, isHome, node, below, configured, isNode,
    isLimiter, isFirst, isBelow⟩ := gated
  have isNodeHash := (wellFormed.trees registered).keyed isNode
  have isBelowHash := (wellFormed.trees registered).keyed isBelow
  have limited : forest.limitAt limiter = some configured := by
    rw [limitAt, node?, registered, Option.bind_some, isNode, Option.bind_some,
      isLimiter]
  refine ⟨home, node, below, ?_⟩
  exact
    { located := wellFormed.located_of_registered registered isNode
      ref := by
        rw [Tree.refTo, isHome, isNodeHash]
        rfl
      kind := ⟨configured, isLimiter, by rw [gate, limited]; rfl⟩
      isChild := by rw [Tree.childAt, isFirst, Option.bind_some, isBelow]
      childRef := by
        rw [Tree.refTo, isHome, isBelowHash, ← sameTree]
        rfl }

/-- Whether it goes through or not, an edit of its limit leaves a Limiter in
place. -/
theorem replaceKind_keeps_gated (limit : UInt32) :
    Edit.Keeps (Gated limiter child) (fun _ => True)
      (editTree limiter.tree
        (Tree.replaceKind limiter.hash (.limiter limit))) := by
  have keeps : Edit.Keeps
      (fun tree => tree.id = limiter.tree ∧ tree.Gated limiter.hash child.hash)
      (fun _ => True) (Tree.replaceKind limiter.hash (.limiter limit)) := by
    unfold Tree.replaceKind
    refine Edit.Keeps.get.andThen fun _ => ?_
    refine (Edit.Keeps.require _).andThen fun node => .guard (.guard ?_)
    apply Edit.Keeps.modify
    rintro tree ⟨isHome, gated⟩
    exact ⟨isHome, gated.updateNode limit⟩
  unfold editTree
  refine Edit.Keeps.get.bind fun forest gated => ?_
  obtain ⟨sameTree, tree, registered, isHome, gated⟩ := gated
  rw [registered]
  apply keeps.zoom (fun _ _ => ⟨isHome, gated⟩)
  rintro current edited _ ⟨isHome, gated⟩
  refine ⟨sameTree, edited, ?_, isHome, gated⟩
  rw [get?_insert, if_pos isHome.symm]

end Forest

theorem Blackboard.kindAt_clearRunning (board : Blackboard) (hash : NodeHash) :
    board.clearRunning.kindAt hash = board.kindAt hash := by
  rw [kindAt, states_clearRunning, Option.map_map]
  rfl

/-- Seeding refreshes the state of a Limiter or creates it. -/
theorem Blackboard.agrees_seeded {board : Blackboard} {node : Node}
    {configured : UInt32} {override : Bool} {tab : Tab} (tree : Tree)
    (isLimiter : node.kind = .limiter configured)
    (agrees : tab.Agrees (board.kindAt node.hash))
    (anew : override = true → board.kindAt node.hash = none) :
    (tab.refresh configured.toNat).Agrees
      (some (board.seeded tree node override).kind) := by
  rw [seeded]
  split
  · next overrides =>
      rw [anew overrides] at agrees
      have isFresh : (NodeState.forNode tree node).kind =
          .limiter configured configured := by
        simp [NodeState.forNode, NodeState.initialKind, isLimiter]
      rw [isFresh]
      exact agrees.create configured
  · exact agrees_syncKind agrees isLimiter tree

theorem Tab.agrees_blank : ({} : Tab).Agrees none :=
  fun _ => ⟨rfl, fun _ => ⟨rfl, rfl⟩⟩

namespace Handler

variable {handler : Handler α} {forest : Forest}

/-- The state of a node on the blackboard, if there is one. -/
def kindAt (handler : Handler α) (hash : NodeHash) : Option KindState :=
  handler.blackboard.bind (·.kindAt hash)

theorem kindAt_eq {board : Blackboard} (holds : handler.blackboard = some board)
    (hash : NodeHash) : handler.kindAt hash = board.kindAt hash := by
  rw [kindAt, holds, Option.bind_some]

/-- The handler goes on with its blackboard. -/
def goesOn (handler : Handler α) (id : TreeId) (agent : UInt64)
    (override : Bool) : Bool :=
  handler.blackboard.any fun board =>
    !override && board.tree = id && board.agent = agent

theorem goesOn_iff {id : TreeId} {agent : UInt64} {override : Bool} :
    handler.goesOn id agent override = true ↔
      ∃ board, handler.Continues id agent override board := by
  simp only [goesOn, Option.any_eq_true, Bool.and_eq_true, Bool.not_eq_true',
    decide_eq_true_eq]
  constructor
  · rintro ⟨board, holds, ⟨kept, boundTo⟩, boundFor⟩
    exact ⟨board, holds, kept, boundTo, boundFor⟩
  · rintro ⟨board, holds, kept, boundTo, boundFor⟩
    exact ⟨board, holds, ⟨kept, boundTo⟩, boundFor⟩

/-- The tab after a setup that passes its checks. -/
def tabAtSetup [Agent α] (handler : Handler α) (forest : Forest) (gate : Gate)
    (tree : Tree) (agent : α) (override : Bool) (tab : Tab) : Tab :=
  let kept :=
    if handler.goesOn tree.id (Agent.stableId agent) override then tab else {}
  if gate.limiter ∈ forest.walkFollowing tree.id then kept.refresh gate.limit
  else kept

section Binding

variable {hash : NodeHash} {tab : Tab} {override : Bool}

theorem kindAt_bindBlackboard {id : TreeId} {agent : UInt64}
    (anew : handler.goesOn id agent override ≠ true) :
    (handler.bindBlackboard id agent override).kindAt hash = none := by
  rw [bindBlackboard_of_not_continues (not_exists.mp (mt goesOn_iff.mpr anew)),
    Blackboard.kindAt, Option.map_eq_none_iff]
  exact Std.ExtTreeMap.getElem?_empty

theorem agrees_bindBlackboard (id : TreeId) (agent : UInt64) (override : Bool)
    (agrees : tab.Agrees (handler.kindAt hash)) :
    (if handler.goesOn id agent override then tab else {} : Tab).Agrees
      ((handler.bindBlackboard id agent override).kindAt hash) := by
  by_cases continues : handler.goesOn id agent override = true
  · obtain ⟨board, continued⟩ := goesOn_iff.mp continues
    rw [if_pos continues, bindBlackboard_of_continues continued,
      Blackboard.kindAt_clearRunning, ← kindAt_eq continued.holds]
    exact agrees
  · rw [if_neg continues, kindAt_bindBlackboard continues]
    exact Tab.agrees_blank

/-- Setup begins the tab anew or goes on with it, and refreshes the Limiter if
it comes to it. -/
theorem agrees_boundBoard [Agent α] {gate : Gate} {home tree : Tree}
    {node below : Node} (stands : gate.Stands forest home node below)
    (wellFormed : forest.WellFormed) (isScoped : forest.Scoped)
    (registered : forest.get? tree.id = some tree) {agent : α}
    (agrees : tab.Agrees (handler.kindAt gate.limiter.hash)) :
    (handler.tabAtSetup forest gate tree agent override tab).Agrees
      ((handler.boundBoard forest tree agent override).kindAt
        gate.limiter.hash) := by
  have bound :=
    agrees_bindBlackboard tree.id (Agent.stableId agent) override agrees
  obtain ⟨configured, isLimiter, isLimit⟩ := stands.kind
  rw [tabAtSetup]
  by_cases met : gate.limiter ∈ forest.walkFollowing tree.id
  · have reaches := ((Forest.mem_walkFollowing wellFormed registered).mp met).2
    rw [← stands.ref] at reaches
    rw [stands.sameHash] at bound ⊢
    rw [if_pos met, ← isLimit, Blackboard.kindAt_eq
      (states_boundBoard wellFormed registered isScoped stands.located reaches)]
    apply Blackboard.agrees_seeded home isLimiter bound
    intro overrides
    apply kindAt_bindBlackboard
    intro continues
    obtain ⟨_, continued⟩ := goesOn_iff.mp continues
    rw [continued.kept] at overrides
    cases overrides
  · have elsewhere : ∀ {other : Tree} {found : Node},
        forest.Located other found → forest.Reaches tree.id other.id →
        found.hash ≠ gate.limiter.hash := by
      intro other found located reaches same
      rw [stands.sameHash] at same
      obtain ⟨rfl, rfl⟩ := isScoped.unique stands.located located same
      rw [← stands.ref] at met
      exact met ((Forest.mem_walkFollowing wellFormed registered).mpr
        ⟨⟨_, _, located, rfl⟩, reaches⟩)
    rw [if_neg met, Blackboard.kindAt_congr
      (states_boundBoard_elsewhere wellFormed registered elsewhere)]
    exact bound

end Binding

/-- The tick of a handler, as a checked one. -/
def tickIf (allows : Setting α → Tree → Node → Pass α → Bool) (fuel : Nat)
    (forest : Forest) (handler : Handler α) (agent : α) :
    Option (Except TickError (TickReport α)) :=
  match handler.blackboard with
  | none => some (.error .notSetUp)
  | some board =>
    match forest.get? board.tree with
    | none => some (.error (.treeMissing board.tree))
    | some tree =>
      let setting := handler.setting forest
      (PassM.tickIf (allows setting) setting fuel tree tree.rootNode
        (handler.rootPass forest board agent)).map
        fun result => .ok { status := result.1, pass := result.2 }

/-- All that a tick with a report does to the Limiter and its child is lawful. -/
theorem lawful_of_tick {gate : Gate} {home : Tree} {node below : Node}
    (stands : gate.Stands forest home node below)
    (wellFormed : forest.WellFormed) (isScoped : forest.Scoped) {tab : Tab}
    {fuel : Nat} {agent : α} {report : TickReport α}
    (agrees : tab.Agrees (handler.kindAt gate.limiter.hash))
    (ticked : tick fuel forest handler agent = some (.ok report)) :
    tickIf (gate.lawful tab) fuel forest handler agent = some (.ok report) ∧
      gate.Settled tab report.pass := by
  obtain ⟨board, holds⟩ := holds_of_tick ticked
  obtain ⟨tree, registered, ended⟩ := (tick_eq_ok_iff holds).mp ticked
  have begins : gate.Settled tab
      ({ agent, board := board.beginTick } : Pass α) := by
    rw [kindAt_eq holds] at agrees
    exact agrees
  have settled : gate.Settled tab (handler.rootPass forest board agent) :=
    Pass.abandonEach_keeps wellFormed (gate.Settled tab)
      (fun located running settled =>
        settled.abandonNode stands isScoped located running _) _ begins
  have located := wellFormed.located_root registered
  have ready : gate.Ready tab tree tree.rootNode
      (handler.rootPass forest board agent) := by
    rw [Gate.Ready, if_neg (stands.root_ne wellFormed registered)]
    exact settled
  obtain ⟨checked, settled⟩ :=
    Gate.lawful_of_tick stands wellFormed isScoped located ready ended
  refine ⟨?_, settled⟩
  rw [tickIf, holds]
  dsimp only
  rw [registered]
  dsimp only
  rw [checked]
  rfl

end Handler

/-- The event is no edit, or one that gives the Limiter another limit. -/
def Session.Event.tunes (limiter : NodeRef) : Session.Event α → Bool
  | .edit (.edit id (.replaceKind hash (.limiter _))) =>
    id = limiter.tree && hash = limiter.hash
  | .edit _ => false
  | .prune => false
  | _ => true

theorem Session.Event.exists_limit_of_tunes {step : Woodland.Step}
    (tunes : (edit step : Session.Event α).tunes limiter = true) :
    ∃ limit,
      step = .edit limiter.tree (.replaceKind limiter.hash (.limiter limit)) := by
  unfold Session.Event.tunes at tunes
  split at tunes
  · next limit same =>
      cases same
      rw [Bool.and_eq_true, decide_eq_true_eq, decide_eq_true_eq] at tunes
      exact ⟨limit, by rw [tunes.1, tunes.2]⟩
  · cases tunes
  · next same => cases same
  · next noEdit _ => exact absurd rfl (noEdit step)

namespace Session

/-- The limit in the state of a Limiter and the uses left. -/
def allowance (session : Session α) (hash : NodeHash) : Option (Nat × Nat) :=
  (session.handler.kindAt hash).bind KindState.allowance

variable [Agent α]

/-- The tab after an event. -/
def tabAt (session : Session α) (limiter child : NodeRef) (tab : Tab) :
    Event α → Tab
  | .setup agent selector override =>
    match session.handler.approve session.forest agent selector with
    | .error _ => tab
    | .ok tree =>
      session.handler.tabAtSetup session.forest
        (session.forest.gate limiter child) tree agent override tab
  | .tick fuel agent =>
    match Handler.tick fuel session.forest session.handler agent with
    | some (.ok report) =>
      (session.forest.gate limiter child).read tab report.pass.log
    | _ => tab
  | _ => tab

/-- The tab after a history. -/
def tabAfter (session : Session α) (limiter child : NodeRef) (tab : Tab) :
    List (Event α) → Tab
  | [] => tab
  | first :: rest =>
    let noted := session.tabAt limiter child tab first
    (session.step first).elim noted (·.tabAfter limiter child noted rest)

variable {session after : Session α} {event : Event α} {events : List (Event α)}
  {tab : Tab}

theorem gated_step (gated : session.forest.Gated limiter child)
    (tunes : event.tunes limiter = true)
    (stepped : session.step event = some after) :
    after.forest.Gated limiter child := by
  rcases woodland_step stepped with ⟨step, rfl, edited, _⟩ | same
  · obtain ⟨limit, rfl⟩ := Event.exists_limit_of_tunes tunes
    obtain ⟨edited, left, isAfter⟩ := Option.map_eq_some_iff.mp edited
    rw [forest, ← isAfter]
    exact (Forest.replaceKind_keeps_gated limit).of_settle gated left
  · rw [forest, same]
    exact gated

theorem agrees_step (sound : session.woodland.Sound)
    (gated : session.forest.Gated limiter child)
    (agrees : tab.Agrees (session.handler.kindAt limiter.hash))
    (tunes : event.tunes limiter = true)
    (stepped : session.step event = some after) :
    (session.tabAt limiter child tab event).Agrees
      (after.handler.kindAt limiter.hash) := by
  have wellFormed : session.forest.WellFormed := sound.wellFormed
  have isScoped : session.forest.Scoped := sound.labelled.isScoped
  obtain ⟨home, node, below, stands⟩ := gated.stands wellFormed
  cases event with
  | edit step =>
      obtain ⟨woodland, _, rfl⟩ := Option.map_eq_some_iff.mp stepped
      exact agrees
  | setup agent selector override =>
      rw [step_setup] at stepped
      rw [tabAt]
      cases approved : session.handler.approve session.forest agent selector with
      | error cause =>
          rw [approved] at stepped
          exact Option.some.inj stepped ▸ agrees
      | ok tree =>
          rw [approved] at stepped
          rw [← Option.some.inj stepped]
          obtain ⟨chosen, _⟩ :=
            (Handler.approve_eq_ok_iff wellFormed).mp approved
          exact Handler.agrees_boundBoard stands wellFormed isScoped
            (Handler.registered_choice wellFormed chosen) agrees
  | tick fuel agent =>
      rw [tabAt]
      obtain ⟨outcome, ticked, rfl⟩ := Option.map_eq_some_iff.mp stepped
      rw [ticked]
      cases outcome with
      | error => exact agrees
      | ok report =>
          exact (Handler.lawful_of_tick stands wellFormed isScoped agrees
            ticked).2
  | prune => cases tunes
  | share change =>
      rw [← Option.some.inj stepped]
      have same : (session.mapBoard fun board => { board with
          globals := change board.globals }).handler.kindAt limiter.hash =
          session.handler.kindAt limiter.hash := Option.bind_map
      rw [same]
      exact agrees

theorem agrees_run (sound : session.woodland.Sound)
    (gated : session.forest.Gated limiter child)
    (agrees : tab.Agrees (session.handler.kindAt limiter.hash))
    (tuned : ∀ event ∈ events, event.tunes limiter = true)
    (ran : session.run events = some after) :
    after.forest.Gated limiter child ∧
      (session.tabAfter limiter child tab events).Agrees
        (after.handler.kindAt limiter.hash) := by
  induction events generalizing session tab with
  | nil => exact Option.some.inj ran ▸ ⟨gated, agrees⟩
  | cons first rest induction =>
      obtain ⟨middle, stepped, ran⟩ := Option.bind_eq_some_iff.mp ran
      have tunes := tuned first List.mem_cons_self
      rw [tabAfter, stepped]
      exact induction (sound_step sound stepped) (gated_step gated tunes stepped)
        (agrees_step sound gated agrees tunes stepped)
        (fun event member => tuned event (List.mem_cons_of_mem _ member)) ran

/-- During any history in which a Limiter gets other limits and its handler is
set up and ticked, the state of the Limiter has left of the limit that the
latest refresh found what was not used since the state was created, and a child
tick is within that limit.  This is so as long as no refresh raised a limit that
did not cover the uses so far. -/
theorem allowance_of_run (sound : session.woodland.Sound) {home : Tree}
    {node below : Node} {configured : UInt32}
    (located : session.forest.Located home node)
    (isLimiter : node.kind = .limiter configured)
    (isChild : home.childAt node 0 = some below)
    (unused : session.handler.kindAt node.hash = none)
    (tuned : ∀ event ∈ events, event.tunes (home.refTo node) = true)
    (ran : session.run events = some after) :
    let tab := session.tabAfter (home.refTo node) (home.refTo below) {} events
    (tab.covered = true → after.allowance node.hash = tab.due) ∧
    ∀ {fuel : Nat} {agent : α} {report : TickReport α},
      Handler.tick fuel after.forest after.handler agent = some (.ok report) →
      Handler.tickIf
        ((after.forest.gate (home.refTo node) (home.refTo below)).lawful tab)
        fuel after.forest after.handler agent = some (.ok report) := by
  have gated := Forest.gated_of_located sound.wellFormed located isLimiter isChild
  have blank : ({} : Tab).Agrees (session.handler.kindAt node.hash) := by
    rw [unused]
    exact Tab.agrees_blank
  have soundAfter := sound_run sound ran
  obtain ⟨gated, agrees⟩ := agrees_run sound gated blank tuned ran
  obtain ⟨_, _, _, stands⟩ := gated.stands soundAfter.wellFormed
  refine ⟨fun covered => (agrees covered).1, fun ticked => ?_⟩
  exact (Handler.lawful_of_tick stands soundAfter.wellFormed
    soundAfter.labelled.isScoped agrees ticked).1

/-- The bridge may be crossed a number of times. -/
def tollgate : Subtree :=
  { name := "tollgate", hash := some ⟨"gate-1"⟩, kind := .limiter 5
    children :=
      [{ name := "cross", hash := some ⟨"cross-1"⟩
         kind := .echoLeaf "cross" true }] }

/-- A tree with the bridge in it. -/
def road : List (Event UInt64) :=
  [.edit (.plant { name := "road", chosen := some ⟨1⟩ }),
   .edit (.edit ⟨1⟩ (.add (.detached tollgate) (Tree.build ⟨1⟩ "road" {}).root
     none false))]

/-- The agent takes the road, again or for the first time. -/
def depart : Event UInt64 := .setup 0 (some (.byId ⟨1⟩)) false

/-- The number of crossings is changed. -/
def allot (limit : UInt32) : Event UInt64 :=
  .edit (.edit ⟨1⟩ (.replaceKind ⟨"gate-1"⟩ (.limiter limit)))

/-- The limit is lowered to the crossings that there are, and raised then. -/
def traffic : List (Event UInt64) :=
  [depart, .tick 20 0, .tick 20 0, allot 3, depart, .tick 20 0, allot 4]

/-- After three crossings out of three the fourth one is lawful. -/
theorem crossings_of_traffic :
    ∃ (session after : Session UInt64) (home : Tree) (gate below : Node)
      (report : TickReport UInt64),
      (start {} {}).run road = some session ∧
      session.forest.Located home gate ∧ gate.kind = .limiter 5 ∧
      home.childAt gate 0 = some below ∧
      session.run traffic = some after ∧
      after.allowance gate.hash = some (3, 0) ∧
      .entered (home.refTo below) ∈ report.pass.log ∧
      Handler.tickIf
        ((after.forest.gate (home.refTo gate) (home.refTo below)).lawful
          (session.tabAfter (home.refTo gate) (home.refTo below) {} traffic))
        20 after.forest after.handler 0 = some (.ok report) := by
  have checked : ((start ({} : Behaviors UInt64) {}).run road).any
      (fun session =>
        (session.forest.get? ⟨1⟩).any fun home =>
        home.nodes[(⟨"gate-1"⟩ : NodeHash)]?.any fun gate =>
        (session.run traffic).any fun after =>
        (home.childAt gate 0).any fun below =>
        (Handler.reported (Handler.tick 20 after.forest after.handler
          (0 : UInt64))).any fun report =>
          let tab :=
            session.tabAfter (home.refTo gate) (home.refTo below) {} traffic
          decide (gate.kind = .limiter 5) &&
            (session.handler.kindAt gate.hash).isNone &&
            traffic.all (·.tunes (home.refTo gate)) &&
            tab.covered && decide (tab.due = some (3, 0)) &&
            decide (.entered (home.refTo below) ∈ report.pass.log)) = true := by
    decide +kernel
  obtain ⟨session, home, gate, ran, sound, located, passed⟩ :=
    exists_located_of_run Woodland.sound_empty checked
  obtain ⟨after, ranOn, passed⟩ := (Option.any_eq_true _ _).mp passed
  obtain ⟨below, isChild, passed⟩ := (Option.any_eq_true _ _).mp passed
  obtain ⟨report, ticked, passed⟩ := (Option.any_eq_true _ _).mp passed
  rw [Handler.reported_eq_some_iff] at ticked
  simp only [Bool.and_eq_true, decide_eq_true_eq, List.all_eq_true,
    Option.isNone_iff_eq_none] at passed
  obtain ⟨⟨⟨⟨⟨isLimiter, unused⟩, tuned⟩, covered⟩, due⟩, crossed⟩ := passed
  obtain ⟨left, lawful⟩ :=
    allowance_of_run sound located isLimiter isChild unused tuned ranOn
  exact ⟨session, after, home, gate, below, report, ran, located, isLimiter,
    isChild, ranOn, (left covered).trans due, crossed, lawful ticked⟩

/-- The limit is lowered below the crossings that there are, and raised then. -/
def congestion : List (Event UInt64) :=
  [depart, .tick 20 0, .tick 20 0, .tick 20 0, allot 1, depart, allot 5, depart]

/-- Of three crossings two are forgotten, so that four out of five are left. -/
theorem crossings_forgotten :
    ∃ (session after : Session UInt64) (home : Tree) (gate below : Node),
      (start {} {}).run road = some session ∧
      session.forest.Located home gate ∧ gate.kind = .limiter 5 ∧
      home.childAt gate 0 = some below ∧
      session.handler.kindAt gate.hash = none ∧
      (∀ event ∈ congestion, event.tunes (home.refTo gate) = true) ∧
      session.run congestion = some after ∧
      after.allowance gate.hash = some (5, 4) ∧
      (session.tabAfter (home.refTo gate) (home.refTo below) {} congestion).due =
        some (5, 2) := by
  have checked : ((start ({} : Behaviors UInt64) {}).run road).any
      (fun session =>
        (session.forest.get? ⟨1⟩).any fun home =>
        home.nodes[(⟨"gate-1"⟩ : NodeHash)]?.any fun gate =>
        (session.run congestion).any fun after =>
        (home.childAt gate 0).any fun below =>
          decide (gate.kind = .limiter 5) &&
            (session.handler.kindAt gate.hash).isNone &&
            congestion.all (·.tunes (home.refTo gate)) &&
            decide (after.allowance gate.hash = some (5, 4)) &&
            decide ((session.tabAfter (home.refTo gate) (home.refTo below) {}
              congestion).due = some (5, 2))) = true := by
    decide +kernel
  obtain ⟨session, home, gate, ran, _, located, passed⟩ :=
    exists_located_of_run Woodland.sound_empty checked
  obtain ⟨after, ranOn, passed⟩ := (Option.any_eq_true _ _).mp passed
  obtain ⟨below, isChild, passed⟩ := (Option.any_eq_true _ _).mp passed
  simp only [Bool.and_eq_true, decide_eq_true_eq, List.all_eq_true,
    Option.isNone_iff_eq_none] at passed
  obtain ⟨⟨⟨⟨isLimiter, unused⟩, tuned⟩, left⟩, due⟩ := passed
  exact ⟨session, after, home, gate, below, ran, located, isLimiter, isChild,
    unused, tuned, ranOn, left, due⟩

end Session

end BehaviorTree
