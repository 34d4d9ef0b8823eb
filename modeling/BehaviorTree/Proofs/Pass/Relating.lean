import BehaviorTree.Proofs.Pass.Lifecycle

/-!
# Relations between passes

Two computations are related if on related passes they come to equal values and
to related passes again, or both run out of fuel.  A kind of node that keeps no
state of its own only reads the agent, the globals and the depth, so its update
respects every relation that leaves these alone.
-/

namespace BehaviorTree

variable {α : Type}

/-- Settings that differ in the step budget and in what is traced at most. -/
structure Setting.Alike (setting other : Setting α) : Prop where
  forest : other.forest = setting.forest
  behaviors : other.behaviors = setting.behaviors
  maxTransitionDepth :
    other.config.maxTransitionDepth = setting.config.maxTransitionDepth

theorem Setting.Alike.refl (setting : Setting α) : setting.Alike setting :=
  ⟨rfl, rfl, rfl⟩

/-- A relation that related passes keep while an update goes on without the
state of its node. -/
structure Pass.Congruence (related : Pass α → Pass α → Prop) : Prop where
  agent : ∀ {first second : Pass α}, related first second →
    second.agent = first.agent
  globals : ∀ {first second : Pass α}, related first second →
    second.board.globals = first.board.globals
  depth : ∀ {first second : Pass α}, related first second →
    second.depth = first.depth
  setAgent : ∀ {first second : Pass α} (agent : α), related first second →
    related { first with agent } { second with agent }
  setGlobals : ∀ {first second : Pass α} (globals : Globals),
    related first second →
    related { first with board := { first.board with globals } }
      { second with board := { second.board with globals } }
  setDepth : ∀ {first second : Pass α} (depth : Nat), related first second →
    related { first with depth } { second with depth }
  emit : ∀ {first second : Pass α} (tag : String) (hash : NodeHash)
    (detail : String), related first second →
    related (first.emit tag hash detail) (second.emit tag hash detail)
  ran : ∀ {first second : Pass α} (action : String), related first second →
    related (first.note (.ran action)) (second.note (.ran action))

namespace PassM

variable {β γ : Type} {related : Pass α → Pass α → Prop}

/-- Two computations that do the same, up to a relation between passes. -/
def Related (related : Pass α → Pass α → Prop) (run other : PassM α β) : Prop :=
  ∀ first second, related first second →
    Option.Rel
      (fun left right => right.1 = left.1 ∧ related left.2 right.2)
      (run first) (other second)

theorem related_pure (value : β) :
    Related related (pure value : PassM α β) (pure value) :=
  fun _ _ relates => .some ⟨rfl, relates⟩

theorem related_outOfFuel :
    Related related (outOfFuel : PassM α β) outOfFuel :=
  fun _ _ _ => .none

theorem Related.bind {run other : PassM α β} {next otherNext : β → PassM α γ}
    (first : Related related run other)
    (rest : ∀ value, Related related (next value) (otherNext value)) :
    Related related (run >>= next) (other >>= otherNext) := by
  intro before otherBefore relates
  have ran := first _ _ relates
  rw [bind_apply, bind_apply]
  generalize run before = outcome at ran ⊢
  generalize other otherBefore = otherOutcome at ran ⊢
  cases ran with
  | none => exact .none
  | @some left right ran =>
      obtain ⟨value, after⟩ := left
      obtain ⟨otherValue, otherAfter⟩ := right
      obtain ⟨same, relates⟩ := ran
      cases same
      exact rest value _ _ relates

theorem related_modify {change otherChange : Pass α → Pass α}
    (relates : ∀ {first second : Pass α}, related first second →
      related (change first) (otherChange second)) :
    Related related (modify change) (modify otherChange) :=
  fun _ _ begins => .some ⟨rfl, relates begins⟩

theorem related_modifyGet {change otherChange : Pass α → β × Pass α}
    (relates : ∀ {first second : Pass α}, related first second →
      (otherChange second).1 = (change first).1 ∧
        related (change first).2 (otherChange second).2) :
    Related related (modifyGet change) (modifyGet otherChange) :=
  fun _ _ begins => .some (relates begins)

theorem related_get_bind {next otherNext : Pass α → PassM α β}
    (rest : ∀ {first second : Pass α}, related first second →
      Related related (next first) (otherNext second)) :
    Related related (get >>= next) (get >>= otherNext) :=
  fun _ _ begins => rest begins _ _ begins

section Congruence

variable (congruence : Pass.Congruence related)
include congruence

theorem related_fail (message : String) :
    Related related (fail message : PassM α Status) (fail message) := by
  refine (related_modify fun {first second} relates => ?_).bind
    fun _ => related_pure _
  rw [Pass.addError, Pass.addError, congruence.globals relates]
  exact congruence.setGlobals _ relates

theorem related_missingChild (node : Node) (index : Nat) :
    Related related (missingChild node index : PassM α Status)
      (missingChild node index) :=
  related_fail congruence _

theorem related_echo (hash : NodeHash) (message : String) :
    Related related (modify (·.emit "bt.echo" hash message) : PassM α Unit)
      (modify (·.emit "bt.echo" hash message)) :=
  related_modify fun relates => congruence.emit _ _ _ relates

section Behaviors

variable {setting other : Setting α} (alike : setting.Alike other)
include alike

theorem related_ask (node : Node) (predicate : String) :
    Related related (ask setting node predicate) (ask other node predicate) := by
  refine related_get_bind fun {first second} relates => ?_
  rw [alike.behaviors, congruence.agent relates, congruence.globals relates]
  cases setting.behaviors.check predicate first.agent first.board.globals with
  | none =>
      exact (related_fail congruence _).bind fun _ => related_pure none
  | some answered =>
      obtain ⟨answer, agent⟩ := answered
      intro before otherBefore begins
      exact .some ⟨rfl, congruence.setAgent agent relates⟩

theorem related_condition (node : Node) (predicate : String) :
    Related related (condition setting node predicate)
      (condition other node predicate) := by
  refine (related_ask congruence alike node predicate).bind fun answer => ?_
  cases answer with
  | none => exact related_pure _
  | some answer => exact related_pure _

theorem related_command (node : Node) (action : String) :
    Related related (command setting node action)
      (command other node action) := by
  refine related_get_bind fun {first second} relates => ?_
  rw [alike.behaviors, congruence.agent relates, congruence.globals relates]
  cases setting.behaviors.run action first.agent first.board.globals with
  | none => exact related_fail congruence _
  | some done =>
      obtain ⟨agent, globals⟩ := done
      intro before otherBefore begins
      exact .some ⟨rfl, congruence.ran action
        (congruence.setGlobals globals (congruence.setAgent agent relates))⟩

end Behaviors

omit congruence in
theorem related_scan {tickAt otherAt : Nat → PassM α Status}
    (ticks : ∀ index, Related related (tickAt index) (otherAt index))
    (goOn : Status) (indices : List Nat) :
    Related related (scan tickAt goOn indices) (scan otherAt goOn indices) := by
  induction indices with
  | nil => exact related_pure _
  | cons index rest induction =>
      refine (ticks index).bind fun status => ?_
      split
      · exact induction
      · exact related_pure _

section Visits

variable {visit otherVisit : Visit α} {tree : Tree} {node : Node}
  (children : ∀ {index : Nat} {child : Node},
    tree.childAt node index = some child →
    Related related (visit tree child) (otherVisit tree child))
include children

theorem related_tickChild (index : Nat) :
    Related related (tickChild visit tree node index)
      (tickChild otherVisit tree node index) := by
  rw [tickChild, tickChild]
  cases isChild : tree.childAt node index with
  | none => exact related_missingChild congruence node index
  | some child => exact children isChild

theorem related_delegate (change : Status → Status) :
    Related related (delegate visit tree node change)
      (delegate otherVisit tree node change) := by
  rw [delegate, delegate]
  cases isChild : tree.childAt node 0 with
  | none => exact related_missingChild congruence node 0
  | some child => exact (children isChild).bind fun _ => related_pure _

theorem related_rootNode :
    Related related (rootNode visit tree node) (rootNode otherVisit tree node) := by
  rw [rootNode, rootNode]
  cases isChild : tree.childAt node 0 with
  | none => exact related_fail congruence _
  | some child => exact children isChild

theorem related_allocator (resources : List String) :
    Related related (allocator visit tree node resources)
      (allocator otherVisit tree node resources) := by
  refine related_get_bind fun {first second} relates => ?_
  dsimp only
  rw [congruence.globals relates]
  split
  · exact related_pure _
  · exact related_delegate congruence children id

variable {setting other : Setting α} (alike : setting.Alike other)
include alike

theorem related_verifier (predicate : String) :
    Related related (verifier setting visit tree node predicate)
      (verifier other otherVisit tree node predicate) := by
  refine (related_ask congruence alike node predicate).bind fun answer => ?_
  cases answer with
  | none => exact related_pure _
  | some answer =>
      cases answer with
      | true => exact related_delegate congruence children id
      | false => exact related_pure _

variable (targets : ∀ {selector : TreeSelector} {target : Tree},
    setting.forest.select selector = some target →
    Related related (visit target target.rootNode)
      (otherVisit target target.rootNode))
include targets

omit children in
theorem related_transition (target : Option TreeSelector) :
    Related related (transition setting visit node target)
      (transition other otherVisit node target) := by
  cases target with
  | none => exact related_fail congruence _
  | some selector =>
      rw [transition, transition, alike.forest]
      cases selected : setting.forest.select selector with
      | none => exact related_fail congruence _
      | some tree =>
          refine related_get_bind fun {first second} relates => ?_
          simp only [congruence.depth relates, alike.maxTransitionDepth]
          split
          · exact related_fail congruence _
          · refine (related_modify fun {first second} relates => ?_).bind
              fun _ => (targets selected).bind fun status =>
                (related_modify fun {first second} relates => ?_).bind
                  fun _ => related_pure status
            · rw [congruence.depth relates]
              exact congruence.setDepth _ relates
            · rw [congruence.depth relates]
              exact congruence.setDepth _ relates

/-- The update of a node without state of its own does the same if the ticks in
it do. -/
theorem related_update_of_plain (plain : node.kind.stateShape = .plain)
    (fuel : Nat) :
    Related related (update setting fuel visit tree node)
      (update other fuel otherVisit tree node) := by
  have ticks := related_tickChild congruence children
  have delegates := related_delegate congruence children
  rw [update, update]
  cases kind : node.kind with
  | root => exact related_rootNode congruence children
  | sequence => exact related_scan ticks _ _
  | selector => exact related_scan ticks _ _
  | inverter => exact delegates _
  | succeeder => exact delegates _
  | failer => exact delegates _
  | allocator resources => exact related_allocator congruence children resources
  | verifier predicate =>
      exact related_verifier congruence children alike predicate
  | echoDecorator message =>
      exact (related_echo congruence _ _).bind fun _ => delegates id
  | condition predicate => exact related_condition congruence alike node predicate
  | command action => exact related_command congruence alike node action
  | transition target => exact related_transition congruence alike targets target
  | echoLeaf message succeed =>
      exact (related_echo congruence _ _).bind fun _ => related_pure _
  | _ =>
      rw [kind] at plain
      cases plain

end Visits

end Congruence

end PassM

end BehaviorTree
