import Mathlib.Data.List.GetD
import Mathlib.Data.List.Perm.Basic
import BehaviorTree.Draw
import BehaviorTree.Proofs.Random

/-!
# Draws from a pool

A scan that finds no entry stops at the last one, and the high half of a product is
below either factor.  So the position of a draw lies in the pool, whatever the weights
are and whatever the stream yields, and draws go on until each entry has been taken
out.  For the same reason each character of a token stands in the alphabet.
-/

namespace BehaviorTree

namespace RandomStream

theorem toNat_scaleBelow_lt (word bound : UInt64) {count : Nat}
    (someEntry : 0 < count) (within : bound.toNat ≤ count) :
    (scaleBelow word bound).toNat < count := by
  rw [scaleBelow]
  refine Nat.lt_of_le_of_lt (Nat.mod_le _ _) ?_
  exact Nat.div_lt_of_lt_mul
    (Nat.mul_lt_mul_of_lt_of_le word.toNat_lt within someEntry)

theorem nextBelow_lt (stream : RandomStream) {bound : UInt64} (positive : 0 < bound) :
    (stream.nextBelow bound).1 < bound :=
  UInt64.lt_iff_toNat_lt.mpr
    (toNat_scaleBelow_lt _ _ (UInt64.lt_iff_toNat_lt.mp positive) (Nat.le_refl _))

end RandomStream

section Pools

variable {pool : List (Nat × Float)} {stream : RandomStream} {drawn : Drawn}

theorem weightedPosition_lt (rest : Float) (someEntry : pool ≠ []) :
    weightedPosition rest pool < pool.length := by
  induction pool generalizing rest with
  | nil => exact absurd rfl someEntry
  | cons entry remaining induction =>
      cases remaining with
      | nil => exact Nat.zero_lt_one
      | cons next others =>
          rw [weightedPosition]
          split
          · exact Nat.succ_pos _
          · exact Nat.succ_lt_succ (induction _ nofun)
          · nofun

theorem drawPosition_lt (stream : RandomStream) (someEntry : pool ≠ []) :
    (drawPosition pool stream).1 < pool.length := by
  rw [drawPosition]
  split
  · exact weightedPosition_lt _ someEntry
  · exact RandomStream.toNat_scaleBelow_lt _ _ (List.length_pos_iff.mpr someEntry)
      (Nat.mod_le _ _)

theorem draw_eq (pool : List (Nat × Float)) (stream : RandomStream) :
    draw pool stream = (pool[(drawPosition pool stream).1]?).map fun entry =>
      { index := entry.1, pool := pool.eraseIdx (drawPosition pool stream).1
        stream := (drawPosition pool stream).2 } :=
  rfl

theorem eq_nil_of_draw (isNone : draw pool stream = none) : pool = [] := by
  by_contra someEntry
  have within := drawPosition_lt stream someEntry
  rw [draw_eq, List.getElem?_eq_getElem within] at isNone
  cases isNone

theorem draw_eq_none_iff : draw pool stream = none ↔ pool = [] :=
  ⟨eq_nil_of_draw, fun isNil => isNil ▸ rfl⟩

theorem split_of_draw (isDrawn : draw pool stream = some drawn) :
    ∃ before weight after, pool = before ++ (drawn.index, weight) :: after ∧
      before.length = (drawPosition pool stream).1 ∧ drawn.pool = before ++ after := by
  rw [draw_eq] at isDrawn
  obtain ⟨entry, isEntry, rfl⟩ := Option.map_eq_some_iff.mp isDrawn
  obtain ⟨within, rfl⟩ := List.getElem?_eq_some_iff.mp isEntry
  have rejoined : pool.take (drawPosition pool stream).1 ++
      pool[(drawPosition pool stream).1] ::
        pool.drop ((drawPosition pool stream).1 + 1) = pool := by
    rw [List.getElem_cons_drop, List.take_append_drop]
  exact ⟨_, pool[(drawPosition pool stream).1].2, _, rejoined.symm,
    List.length_take_of_le (Nat.le_of_lt within), List.eraseIdx_eq_take_drop_succ _ _⟩

theorem perm_of_draw (isDrawn : draw pool stream = some drawn) :
    (pool.map Prod.fst).Perm (drawn.index :: drawn.pool.map Prod.fst) := by
  obtain ⟨before, weight, after, isPool, _, rest⟩ := split_of_draw isDrawn
  rw [isPool, rest, List.map_append, List.map_append, List.map_cons]
  exact List.perm_middle

theorem length_of_draw (isDrawn : draw pool stream = some drawn) :
    pool.length = drawn.pool.length + 1 := by
  simpa using (perm_of_draw isDrawn).length_eq

/-- The indices that draws take out of a pool until none is left. -/
inductive Drains : List (Nat × Float) → RandomStream → List Nat → Prop where
  | finish {pool : List (Nat × Float)} {stream : RandomStream} :
      draw pool stream = none → Drains pool stream []
  | take {pool : List (Nat × Float)} {stream : RandomStream} {drawn : Drawn}
      {later : List Nat} :
      draw pool stream = some drawn → Drains drawn.pool drawn.stream later →
      Drains pool stream (drawn.index :: later)

theorem Drains.unique {first second : List Nat} (drains : Drains pool stream first)
    (again : Drains pool stream second) : first = second := by
  induction drains generalizing second with
  | finish isNone =>
      cases again with
      | finish => rfl
      | take isDrawn => cases isNone.symm.trans isDrawn
  | take isDrawn _ induction =>
      cases again with
      | finish isNone => cases isNone.symm.trans isDrawn
      | take isOther later =>
          cases isDrawn.symm.trans isOther
          rw [induction later]

theorem Drains.perm {indices : List Nat} (drains : Drains pool stream indices) :
    indices.Perm (pool.map Prod.fst) := by
  induction drains with
  | finish isNone => rw [eq_nil_of_draw isNone, List.map_nil]
  | take isDrawn _ induction => exact (induction.cons _).trans (perm_of_draw isDrawn).symm

theorem exists_drains (pool : List (Nat × Float)) (stream : RandomStream) :
    ∃ indices, Drains pool stream indices := by
  induction size : pool.length generalizing pool stream with
  | zero =>
      exact ⟨[], .finish (draw_eq_none_iff.mpr (List.length_eq_zero_iff.mp size))⟩
  | succ size induction =>
      cases isDrawn : draw pool stream with
      | none => exact ⟨[], .finish isDrawn⟩
      | some drawn =>
          obtain ⟨later, drains⟩ := induction drawn.pool drawn.stream
            (Nat.succ_inj.mp ((length_of_draw isDrawn).symm.trans (by assumption)))
          exact ⟨_, .take isDrawn drains⟩

end Pools

namespace HashMinter

theorem toNat_nextBelow_lt (stream : RandomStream) :
    (stream.nextBelow 36).1.toNat < tokenAlphabet.length :=
  RandomStream.toNat_scaleBelow_lt _ _ (by decide) (by decide)

theorem drawCharacters_eq (stream : RandomStream) (count : Nat) :
    (drawCharacters stream count).1.map some = (RandomStream.words count stream).map
      fun word => tokenAlphabet[(RandomStream.scaleBelow word 36).toNat]? := by
  induction count generalizing stream with
  | zero => rfl
  | succ count induction =>
      have within : (RandomStream.scaleBelow stream.next.1 36).toNat <
          tokenAlphabet.length := toNat_nextBelow_lt stream
      rw [RandomStream.words, List.map_cons, ← induction, List.getElem?_eq_getElem within,
        ← List.getD_eq_getElem _ 'a' within]
      rfl

theorem spelled_candidate (minter : HashMinter) :
    ∃ token, minter.candidate.1 = .ofToken token minter.scope ∧
      token.map some =
        (RandomStream.words (max minter.config.tokenLength.toNat 1) minter.stream).map
          fun word => tokenAlphabet[(RandomStream.scaleBelow word 36).toNat]? :=
  ⟨_, rfl, drawCharacters_eq _ _⟩

end HashMinter

/-- Whatever the weights are and whatever the stream yields, a draw from a pool that is
not empty takes one entry out and keeps the others in their order.  So draws come to
an end and have then handed out the indices of the pool, each as often as it was
there.  A number that is drawn below a bound is below it, and so each character of a
token stands in the alphabet. -/
theorem draws_exact :
    (∀ pool stream, draw pool stream = none ↔ pool = []) ∧
    (∀ pool stream drawn, draw pool stream = some drawn → ∃ before weight after,
      pool = before ++ (drawn.index, weight) :: after ∧
      before.length = (drawPosition pool stream).1 ∧ drawn.pool = before ++ after) ∧
    (∀ pool stream, ∃ indices, Drains pool stream indices ∧
      (∀ other, Drains pool stream other → other = indices) ∧
      indices.length = pool.length ∧ indices.Perm (pool.map Prod.fst)) ∧
    (∀ (stream : RandomStream) (bound : UInt64), 0 < bound →
      (stream.nextBelow bound).1 < bound) ∧
    (∀ stream : RandomStream,
      (stream.nextBelow 36).1.toNat < tokenAlphabet.length) ∧
    ∀ minter : HashMinter, ∃ token,
      minter.candidate.1 = .ofToken token minter.scope ∧
      token.map some =
        (RandomStream.words (max minter.config.tokenLength.toNat 1) minter.stream).map
          fun word => tokenAlphabet[(RandomStream.scaleBelow word 36).toNat]? := by
  refine ⟨fun _ _ => draw_eq_none_iff, fun _ _ _ => split_of_draw,
    fun pool stream => ?_, fun stream _ => stream.nextBelow_lt,
    fun stream => HashMinter.toNat_nextBelow_lt stream, HashMinter.spelled_candidate⟩
  obtain ⟨indices, drains⟩ := exists_drains pool stream
  have perm := drains.perm
  exact ⟨indices, drains, fun _ other => other.unique drains,
    perm.length_eq.trans (List.length_map _), perm⟩

/-- Weights that are no number, infinite, zero and negative. -/
def hazards : List (Nat × Float) :=
  [(4, 0.0 / 0.0), (2, 1.0 / 0.0), (7, 0.0), (0, -1.0)]

/-- Such weights sum to no number, and the draws are uniform. -/
theorem hazards_drained :
    (∃ drawn, draw hazards (.ofSeed 4) = some drawn ∧ drawn.index = 2 ∧
      ∃ before weight after, hazards = before ++ (2, weight) :: after ∧
        before.length = 1 ∧ drawn.pool = before ++ after) ∧
    (∃ indices, Drains hazards (.ofSeed 4) indices ∧ indices.length = 4 ∧
      indices.Perm [4, 2, 7, 0]) ∧
    ((RandomStream.ofSeed 4).nextBelow 4).1 < 4 := by
  obtain ⟨_, splits, drained, below, _⟩ := draws_exact
  have checked : (draw hazards (.ofSeed 4)).any (fun drawn => drawn.index == 2) = true := by
    decide +kernel
  obtain ⟨drawn, isDrawn, isIndex⟩ := (Option.any_eq_true _ _).mp checked
  have isIndex : drawn.index = 2 := by simpa using isIndex
  obtain ⟨before, weight, after, isPool, isPosition, rest⟩ := splits _ _ _ isDrawn
  obtain ⟨indices, drains, _, size, perm⟩ := drained hazards (.ofSeed 4)
  refine ⟨⟨drawn, isDrawn, isIndex, before, weight, after, isIndex ▸ isPool, ?_, rest⟩,
    ⟨indices, drains, size, perm⟩, below _ 4 (by decide)⟩
  rw [isPosition]
  decide +kernel

end BehaviorTree
