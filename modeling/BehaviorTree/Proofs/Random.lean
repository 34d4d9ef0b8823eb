import Mathlib.Data.List.Nodup
import Mathlib.Logic.Equiv.Defs
import BehaviorTree.Blackboard

/-!
# Streams of words

Each step of the mixing can be undone, so mixing loses nothing: seeds that are derived
for different purposes differ.  A stream scrambles a counter that goes in odd steps
through all words, so it repeats itself no sooner than after as many words as there
are.
-/

namespace BehaviorTree

theorem shiftRight_thrice {distance : UInt64} (far : 64 ≤ 3 * (distance.toNat % 64))
    (word : UInt64) : word >>> distance >>> distance >>> distance = 0 := by
  have gone : 2 ^ 64 ≤ 2 ^ (distance.toNat % 64 + (distance.toNat % 64 +
      distance.toNat % 64)) := Nat.pow_le_pow_right Nat.two_pos (by omega)
  apply UInt64.toNat_inj.mp
  rw [UInt64.toNat_shiftRight, UInt64.toNat_shiftRight, UInt64.toNat_shiftRight,
    ← Nat.shiftRight_add, ← Nat.shiftRight_add]
  exact Nat.shiftRight_eq_zero _ _ (Nat.lt_of_lt_of_le word.toNat_lt gone)

/-- A word with its high bits mixed into the low ones.  To undo it, the bits that were
mixed in are mixed in again, and again those that this mixes in. -/
def folding (distance : UInt64) (far : 64 ≤ 3 * (distance.toNat % 64)) :
    UInt64 ≃ UInt64 where
  toFun word := word ^^^ (word >>> distance)
  invFun word := word ^^^ (word >>> distance) ^^^ (word >>> distance >>> distance)
  left_inv word := by
    have gone := shiftRight_thrice far word
    simp only [UInt64.shiftRight_xor, gone, UInt64.xor_zero]
    rw [UInt64.xor_assoc, UInt64.xor_assoc _ (word >>> distance >>> distance),
      UInt64.xor_self, UInt64.xor_zero, UInt64.xor_assoc, UInt64.xor_self,
      UInt64.xor_zero]
  right_inv word := by
    have gone := shiftRight_thrice far word
    simp only [UInt64.shiftRight_xor, gone, UInt64.xor_zero]
    rw [UInt64.xor_assoc word, UInt64.xor_assoc, UInt64.xor_self, UInt64.xor_zero]

/-- The product with a factor that has an inverse. -/
def scaling (factor inverse : UInt64) (unit : factor * inverse = 1) :
    UInt64 ≃ UInt64 where
  toFun word := word * factor
  invFun word := word * inverse
  left_inv word := by
    dsimp only
    rw [UInt64.mul_assoc, unit, UInt64.mul_one]
  right_inv word := by
    dsimp only
    rw [UInt64.mul_assoc, UInt64.mul_comm inverse, unit, UInt64.mul_one]

/-- The mixing, step by step. -/
def mixing : UInt64 ≃ UInt64 :=
  (folding 30 (by decide)).trans <|
    (scaling 0xBF58476D1CE4E5B9 0x96DE1B173F119089 (by decide)).trans <|
      (folding 27 (by decide)).trans <|
        (scaling 0x94D049BB133111EB 0x319642B2D24D8EC3 (by decide)).trans <|
          folding 31 (by decide)

theorem coe_mixing : ⇑mixing = mix64 := rfl

theorem mix64_injective : Function.Injective mix64 := coe_mixing ▸ mixing.injective

theorem deriveSeed_injective_common (agent stream : UInt64) :
    Function.Injective fun common => deriveSeed common agent stream := by
  intro first second same
  have same := mix64_injective same
  rwa [UInt64.xor_left_inj, UInt64.xor_left_inj] at same

theorem deriveSeed_injective_agent (common stream : UInt64) :
    Function.Injective fun agent => deriveSeed common agent stream := by
  intro first second same
  have same := mix64_injective same
  rw [UInt64.xor_left_inj, UInt64.xor_right_inj] at same
  exact (UInt64.add_left_inj _).mp (mix64_injective same)

theorem deriveSeed_injective_stream (common agent : UInt64) :
    Function.Injective fun stream => deriveSeed common agent stream := by
  intro first second same
  have same := mix64_injective same
  rw [UInt64.xor_right_inj] at same
  exact mix64_injective same

theorem HashMinter.new_stream_ne {first second : TreeId} {config other : HashConfig}
    (sameSeed : config.seed = other.seed) (different : first ≠ second) :
    (new first config).stream ≠ (new second other).stream := by
  intro same
  rw [new, new, sameSeed] at same
  have ids := deriveSeed_injective_agent _ _ (RandomStream.mk.inj same)
  exact different (congrArg TreeId.mk ids)

theorem Blackboard.new_stream_ne (tree : TreeId) {first second : UInt64}
    (seed : UInt64) (tracer other : Tracer) (different : first ≠ second) :
    (new tree first seed tracer).stream ≠ (new tree second seed other).stream :=
  fun same => different
    (deriveSeed_injective_agent _ _ (RandomStream.mk.inj same))

namespace RandomStream

/-- The next words of a stream. -/
def words : Nat → RandomStream → List UInt64
  | 0, _ => []
  | count + 1, stream => stream.next.1 :: words count stream.next.2

theorem length_words (count : Nat) (stream : RandomStream) :
    (words count stream).length = count := by
  induction count generalizing stream with
  | zero => rfl
  | succ count induction => rw [words, List.length_cons, induction]

/-- The counter has moved by one step for each word. -/
theorem getElem?_words {count index : Nat} (bound : index < count)
    (stream : RandomStream) :
    (words count stream)[index]? =
      some (mix64 (stream.state + UInt64.ofNat (index + 1) * streamIncrement)) := by
  induction count generalizing index stream with
  | zero => cases bound
  | succ count induction =>
      cases index with
      | zero =>
          rw [words, List.getElem?_cons_zero, Nat.zero_add, UInt64.ofNat_one,
            UInt64.one_mul]
          rfl
      | succ index =>
          rw [words, List.getElem?_cons_succ, induction (Nat.lt_of_succ_lt_succ bound),
            UInt64.ofNat_add (index + 1), UInt64.add_mul, UInt64.ofNat_one,
            UInt64.one_mul, UInt64.add_comm (UInt64.ofNat _ * _), ← UInt64.add_assoc]
          rfl

theorem steps_injective {first second : Nat} (firstBound : first < UInt64.size)
    (secondBound : second < UInt64.size)
    (same : UInt64.ofNat (first + 1) * streamIncrement =
      UInt64.ofNat (second + 1) * streamIncrement) : first = second := by
  have odd : streamIncrement * 0xF1DE83E19937733D = 1 := by decide
  have steps := congrArg UInt64.toNat ((scaling _ _ odd).injective same)
  rw [UInt64.toNat_ofNat', UInt64.toNat_ofNat'] at steps
  rw [UInt64.size] at firstBound secondBound
  omega

theorem nodup_words {count : Nat} (bound : count ≤ UInt64.size) (stream : RandomStream) :
    (words count stream).Nodup := by
  rw [List.nodup_iff_getElem?_ne_getElem?]
  intro first second before inside same
  rw [length_words] at inside
  rw [getElem?_words (Nat.lt_trans before inside), getElem?_words inside,
    Option.some.injEq] at same
  have steps := (UInt64.add_right_inj _).mp (mix64_injective same)
  exact Nat.ne_of_lt before (steps_injective (by omega) (by omega) steps)

end RandomStream

/-- Mixing can be undone.  So no two trees with one seed for their hashes, and no two
agents on a tree with one seed, share the seed of a stream, and a stream scrambles the
values of a counter, none of which comes back within as many words as there are. -/
theorem mixing_exact :
    Function.Bijective mix64 ∧
    (∀ agent stream, Function.Injective fun common => deriveSeed common agent stream) ∧
    (∀ common stream, Function.Injective fun agent => deriveSeed common agent stream) ∧
    (∀ common agent, Function.Injective fun stream => deriveSeed common agent stream) ∧
    (∀ (first second : TreeId) (config other : HashConfig),
      config.seed = other.seed → first ≠ second →
      (HashMinter.new first config).stream ≠ (HashMinter.new second other).stream) ∧
    (∀ (tree : TreeId) (first second seed : UInt64) (tracer other : Tracer),
      first ≠ second → (Blackboard.new tree first seed tracer).stream ≠
        (Blackboard.new tree second seed other).stream) ∧
    (∀ (seed : UInt64) (count index : Nat), index < count →
      (RandomStream.words count (.ofSeed seed))[index]? =
        some (mix64 (seed + UInt64.ofNat (index + 1) * 0x9E3779B97F4A7C15))) ∧
    ∀ (stream : RandomStream) (count : Nat), count ≤ UInt64.size →
      (RandomStream.words count stream).Nodup :=
  ⟨mixing.bijective, deriveSeed_injective_common, deriveSeed_injective_agent,
    deriveSeed_injective_stream,
    fun _ _ _ _ sameSeed different => HashMinter.new_stream_ne sameSeed different,
    fun tree _ _ seed tracer other different =>
      Blackboard.new_stream_ne tree seed tracer other different,
    fun seed _ _ bound => RandomStream.getElem?_words bound (.ofSeed seed),
    fun stream _ bound => RandomStream.nodup_words bound stream⟩

/-- Two trees, two agents, and the first words of a stream. -/
theorem streams_apart :
    (HashMinter.new ⟨1⟩ {}).stream ≠ (HashMinter.new ⟨2⟩ {}).stream ∧
      (Blackboard.new ⟨1⟩ 7 42 {}).stream ≠ (Blackboard.new ⟨1⟩ 8 42 {}).stream ∧
      (RandomStream.words 3 (.ofSeed 0))[0]? = some 0xE220A8397B1DCDAF ∧
      (RandomStream.words 3 (.ofSeed 0)).Nodup := by
  obtain ⟨_, _, _, _, trees, agents, values, distinct⟩ := mixing_exact
  refine ⟨trees ⟨1⟩ ⟨2⟩ {} {} rfl (by decide), agents ⟨1⟩ 7 8 42 {} {} (by decide), ?_,
    distinct _ 3 (by decide)⟩
  rw [values 0 3 0 (by decide)]
  decide

end BehaviorTree
