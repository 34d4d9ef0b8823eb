import BehaviorTree.HashMinter
import Mathlib.Data.List.Basic

/-!
# Scopes of hashes

The scope of a hash is what follows its last dash, read as a number.  Decimal
digits contain no dash and are read back as the number that they spell, so a
minted hash is scoped to the tree of its minter whatever its token.  A hash has
at most one scope; hashes with different scopes differ.
-/

namespace BehaviorTree

theorem afterLastDash_eq_none_iff {chars : List Char} :
    afterLastDash chars = none ↔ '-' ∉ chars := by
  induction chars with
  | nil => simp [afterLastDash]
  | cons char rest induction =>
      rw [afterLastDash]
      cases found : afterLastDash rest with
      | some scope =>
          have dashed : '-' ∈ rest := by
            by_contra dashless
            simp [induction.mpr dashless] at found
          simp [dashed]
      | none =>
          have dashless := induction.mp found
          by_cases dash : char = '-'
          · simp [dash]
          · simp [dash, Ne.symm dash, dashless]

theorem afterLastDash_append {scope : List Char} (dashless : '-' ∉ scope)
    (token : List Char) :
    afterLastDash (token ++ '-' :: scope) = some scope := by
  induction token with
  | nil => simp [afterLastDash, afterLastDash_eq_none_iff.mpr dashless]
  | cons char token induction => simp [afterLastDash, induction]

theorem afterLastDash_eq_some_iff {chars scope : List Char} :
    afterLastDash chars = some scope ↔
      ∃ token, chars = token ++ '-' :: scope ∧ '-' ∉ scope := by
  constructor
  · intro found
    induction chars with
    | nil => simp [afterLastDash] at found
    | cons char rest induction =>
        rw [afterLastDash] at found
        cases further : afterLastDash rest with
        | some later =>
            rw [further] at found
            cases found
            obtain ⟨token, isRest, dashless⟩ := induction further
            exact ⟨char :: token, by simp [isRest], dashless⟩
        | none =>
            rw [further] at found
            split_ifs at found with dash
            cases found
            exact ⟨[], by simp [dash], afterLastDash_eq_none_iff.mp further⟩
  · rintro ⟨token, rfl, dashless⟩
    exact afterLastDash_append dashless token

theorem readUnsigned_toDigits (value : Nat) :
    readUnsigned (Nat.toDigits 10 value) = some value := by
  have digits : ∀ char ∈ Nat.toDigits 10 value, char.isDigit = true :=
    fun char member =>
      Nat.isDigit_of_mem_toDigits (by decide) (by decide) member
  have unsigned : ∀ rest, Nat.toDigits 10 value ≠ '+' :: rest := by
    intro rest same
    have digit := digits '+' (by simp [same])
    revert digit
    decide
  unfold readUnsigned
  split
  · next rest same => exact absurd same (unsigned rest)
  · rw [if_neg]
    · rw [Nat.ofDigitChars_ten_toDigits]
    · simp [Nat.toDigits_ne_nil, List.all_eq_true.mpr digits]

namespace NodeHash

/-- The text after the last dash of the hash is a number, which is the id. -/
def Spells (hash : NodeHash) (id : TreeId) : Prop :=
  ∃ token scope, hash.text.toList = token ++ '-' :: scope ∧ '-' ∉ scope ∧
    readUnsigned scope = some id.value.toNat

theorem isScopedTo_iff {hash : NodeHash} {id : TreeId} :
    hash.isScopedTo id = true ↔ hash.Spells id := by
  rw [isScopedTo, beq_iff_eq, scopeId, Spells]
  constructor
  · intro isScoped
    obtain ⟨scope, found, isScoped⟩ := Option.bind_eq_some_iff.mp isScoped
    obtain ⟨value, read, isScoped⟩ := Option.bind_eq_some_iff.mp isScoped
    obtain ⟨token, isText, dashless⟩ := afterLastDash_eq_some_iff.mp found
    refine ⟨token, scope, isText, dashless, ?_⟩
    split_ifs at isScoped with small
    rw [read, ← Option.some.inj isScoped]
    exact congrArg some (UInt64.toNat_ofNat_of_lt' small).symm
  · rintro ⟨token, scope, isText, dashless, read⟩
    rw [afterLastDash_eq_some_iff.mpr ⟨token, isText, dashless⟩]
    simp only [Option.bind_eq_bind, Option.bind_some, read,
      if_pos (UInt64.toNat_lt id.value)]
    simp

/-- A token in the scope of a tree is scoped to the tree, even if the token has
dashes of its own. -/
theorem isScopedTo_ofToken (token : List Char) (id : TreeId) :
    (ofToken token id).isScopedTo id = true := by
  rw [isScopedTo_iff]
  refine ⟨token, Nat.toDigits 10 id.value.toNat, String.toList_ofList, ?_,
    readUnsigned_toDigits _⟩
  intro dashed
  have digit := Nat.isDigit_of_mem_toDigits (by decide) (by decide) dashed
  revert digit
  decide

theorem scope_unique {hash : NodeHash} {first second : TreeId}
    (scopedFirst : hash.isScopedTo first = true)
    (scopedSecond : hash.isScopedTo second = true) : first = second := by
  rw [isScopedTo, beq_iff_eq] at scopedFirst scopedSecond
  exact Option.some.inj (scopedFirst.symm.trans scopedSecond)

end NodeHash

namespace HashMinter

variable {minter rest : HashMinter} {taken : NodeHash → Bool}

theorem scope_mintWithin (taken : NodeHash → Bool) (attempts : Nat)
    (minter : HashMinter) :
    (mintWithin taken attempts minter).2.scope = minter.scope := by
  induction attempts generalizing minter with
  | zero => rfl
  | succ attempts induction =>
      rw [mintWithin]
      have stays : minter.candidate.2.scope = minter.scope := rfl
      cases isTaken : taken minter.candidate.1 with
      | true => simpa only [isTaken, if_true] using
          (induction minter.candidate.2).trans stays
      | false => simpa only [isTaken, Bool.false_eq_true, if_false] using stays

theorem isScopedTo_of_mintWithin {attempts : Nat} {hash : NodeHash}
    (minted : (mintWithin taken attempts minter).1 = some hash) :
    hash.isScopedTo minter.scope = true := by
  induction attempts generalizing minter with
  | zero => simp [mintWithin] at minted
  | succ attempts induction =>
      rw [mintWithin] at minted
      cases isTaken : taken minter.candidate.1 with
      | true =>
          simp only [isTaken, if_true] at minted
          have further := induction minted
          exact further
      | false =>
          simp only [isTaken, Bool.false_eq_true, if_false,
            Option.some.injEq] at minted
          exact minted ▸ NodeHash.isScopedTo_ofToken _ _

theorem scope_mint (taken : NodeHash → Bool) (minter : HashMinter) :
    (minter.mint taken).2.scope = minter.scope := by
  have same := scope_mintWithin taken (max minter.config.maxAttempts.toNat 1)
    minter
  rw [mint]
  split <;> simp_all

theorem isScopedTo_of_mint {hash : NodeHash}
    (minted : minter.mint taken = (.ok hash, rest)) :
    hash.isScopedTo minter.scope = true := by
  rw [mint] at minted
  split at minted
  · next found final within =>
      cases minted
      exact isScopedTo_of_mintWithin (congrArg Prod.fst within)
  · cases minted

end HashMinter

end BehaviorTree
