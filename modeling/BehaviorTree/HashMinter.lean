import BehaviorTree.NodeHash
import BehaviorTree.Random

/-!
# Minting node hashes

A fresh hash is a token of letters and digits drawn from the tree's own stream,
in the scope of the tree.  Candidates that are taken are drawn again, a bounded
number of times.
-/

namespace BehaviorTree

/-- How the hashes of a tree are drawn. -/
structure HashConfig where
  /-- Characters in a token; zero counts as one. -/
  tokenLength : UInt64 := 4
  /-- Candidates tried before minting gives up; zero counts as one. -/
  maxAttempts : UInt32 := 64
  /-- Mixed with the tree id into the seed of the token stream. -/
  seed : UInt64 := 0
deriving DecidableEq, Inhabited

/-- Every candidate that was drawn is taken already. -/
structure MintingExhausted where
  attempts : UInt32
  tree : TreeId
  tokenLength : UInt64
deriving DecidableEq

def MintingExhausted.message (failure : MintingExhausted) : String :=
  "hash generation exhausted " ++ failure.attempts.toNat.repr ++
    " attempts for tree " ++ failure.tree.text ++
    " (token_len=" ++ failure.tokenLength.toNat.repr ++ ")"

/-- The characters of a token. -/
def tokenAlphabet : List Char := "abcdefghijklmnopqrstuvwxyz0123456789".toList

/-- Separates the token streams from all other streams of a seed. -/
def tokenStream : UInt64 := 0x48415348

/-- The source of a tree's hashes. -/
structure HashMinter where
  stream : RandomStream
  config : HashConfig
  scope : TreeId
deriving DecidableEq, Inhabited

namespace HashMinter

def new (scope : TreeId) (config : HashConfig) : HashMinter :=
  { stream := .ofSeed (deriveSeed config.seed scope.value tokenStream)
    config
    scope }

/-- Draws `count` characters of the alphabet. -/
def drawCharacters (stream : RandomStream) : Nat → List Char × RandomStream
  | 0 => ([], stream)
  | count + 1 =>
    let (position, rest) := stream.nextBelow 36
    let (characters, final) := drawCharacters rest count
    (tokenAlphabet.getD position.toNat 'a' :: characters, final)

/-- Draws the next candidate, whether or not it is free. -/
def candidate (minter : HashMinter) : NodeHash × HashMinter :=
  let length := max minter.config.tokenLength.toNat 1
  let (token, stream) := drawCharacters minter.stream length
  (.ofToken token minter.scope, { minter with stream })

/-- Draws up to `attempts` candidates until one is free. -/
def mintWithin (taken : NodeHash → Bool) :
    Nat → HashMinter → Option NodeHash × HashMinter
  | 0, minter => (none, minter)
  | attempts + 1, minter =>
    let (hash, rest) := minter.candidate
    if taken hash then mintWithin taken attempts rest else (some hash, rest)

/-- Mints a hash that is not taken. -/
def mint (taken : NodeHash → Bool) (minter : HashMinter) :
    Except MintingExhausted NodeHash × HashMinter :=
  match mintWithin taken (max minter.config.maxAttempts.toNat 1) minter with
  | (some hash, rest) => (.ok hash, rest)
  | (none, rest) =>
    (.error
      { attempts := minter.config.maxAttempts
        tree := minter.scope
        tokenLength := minter.config.tokenLength },
      rest)

end HashMinter

end BehaviorTree
