import BehaviorTree.NodeState

/-!
# Configuration and progress

A state copies the configuration of its node's kind and adds progress of its
own.  A refresh copies the configuration again and keeps the progress.
-/

namespace BehaviorTree

namespace KindState

/-- The configuration that the state copies is that of the kind. -/
def Configured : KindState → NodeKind → Prop
  | parallel _ spec, kind => kind = .parallel spec
  | repeater repeats _, kind => kind = .repeater repeats
  | limiter limit _, kind => kind = .limiter limit
  | _, _ => True

/-- The second state goes on from the progress of the first one.  A Limiter
under a new limit has spent as many uses as before. -/
def Resumes : KindState → KindState → Prop
  | parallel results _, after => ∃ spec, after = .parallel results spec
  | repeater _ count, after => ∃ repeats, after = .repeater repeats count
  | limiter limit remaining, after => ∃ configured left,
      after = .limiter configured left ∧
      (configured = limit → left = remaining) ∧
      (configured ≠ limit → left.toNat =
        configured.toNat - (limit.toNat - remaining.toNat))
  | before, after => after = before

theorem Resumes.refl (state : KindState) : state.Resumes state := by
  cases state with
  | parallel results spec => exact ⟨spec, rfl⟩
  | repeater repeats count => exact ⟨repeats, rfl⟩
  | limiter limit remaining =>
      exact ⟨limit, remaining, rfl, fun _ => rfl, fun differs => absurd rfl differs⟩
  | _ => rfl

end KindState

namespace NodeState

theorem toNat_saturatingSub (left right : UInt32) :
    (saturatingSub left right).toNat = left.toNat - right.toNat := by
  rw [saturatingSub]
  split
  · next enough => exact UInt32.toNat_sub_of_le _ _ enough
  · next short =>
      rw [UInt32.le_iff_toNat_le] at short
      simp only [UInt32.toNat_zero]
      omega

theorem shape_syncKind (state : KindState) (kind : NodeKind) :
    (syncKind state kind).shape = state.shape := by
  unfold syncKind
  split <;> try rfl
  split <;> rfl

theorem syncKind_limiter (limit remaining configured : UInt32) :
    syncKind (.limiter limit remaining) (.limiter configured) =
      .limiter configured
        (if limit = configured then remaining
          else saturatingSub configured (saturatingSub limit remaining)) := by
  rw [syncKind]
  split
  · next same => rw [same]
  · rfl

theorem configured_syncKind {state : KindState} {kind : NodeKind}
    (fits : state.fits kind = true) :
    (syncKind state kind).Configured kind := by
  have sameShape : state.shape = kind.stateShape := of_decide_eq_true fits
  cases state with
  | limiter limit remaining =>
      cases kind <;>
        simp only [KindState.shape, NodeKind.stateShape, reduceCtorEq] at sameShape
      rw [syncKind_limiter]
      rfl
  | _ =>
      cases kind <;>
        simp only [KindState.shape, NodeKind.stateShape, reduceCtorEq] at sameShape <;>
        simp only [syncKind, KindState.Configured]

theorem resumes_syncKind (state : KindState) (kind : NodeKind) :
    state.Resumes (syncKind state kind) := by
  cases state with
  | parallel results spec => cases kind <;> exact ⟨_, rfl⟩
  | repeater repeats count => cases kind <;> exact ⟨_, rfl⟩
  | limiter limit remaining =>
      cases kind with
      | limiter configured =>
          rw [syncKind_limiter]
          refine ⟨_, _, rfl, fun same => if_pos same.symm, fun differs => ?_⟩
          rw [if_neg (Ne.symm differs), toNat_saturatingSub, toNat_saturatingSub]
      | _ => exact .refl _
  | _ => cases kind <;> rfl

theorem configured_initialKind (tree : Tree) (node : Node) :
    (initialKind tree node).Configured node.kind := by
  cases kind : node.kind <;> simp [initialKind, kind, KindState.Configured]

theorem syncConfig_forNode (tree : Tree) (node : Node) :
    (forNode tree node).syncConfig node = forNode tree node := by
  cases kind : node.kind <;>
    simp [syncConfig, forNode, initialKind, syncKind, kind]

end NodeState

end BehaviorTree
