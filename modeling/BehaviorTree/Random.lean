/-!
# Deterministic random streams

A small generator for replayable runs, not for secrets.  Trees draw hash tokens
from one stream and blackboards draw children from another; a stream is fixed
by its seed, and seeds for different purposes are derived by mixing.
-/

namespace BehaviorTree

/-- A bijective scrambling of 64-bit words. -/
def mix64 (word : UInt64) : UInt64 :=
  let first := (word ^^^ (word >>> 30)) * 0xBF58476D1CE4E5B9
  let second := (first ^^^ (first >>> 27)) * 0x94D049BB133111EB
  second ^^^ (second >>> 31)

/-- Distance between two consecutive states of a stream. -/
def streamIncrement : UInt64 := 0x9E3779B97F4A7C15

/-- Seed of one stream of one agent under a common seed. -/
def deriveSeed (common agent stream : UInt64) : UInt64 :=
  mix64 (common ^^^ mix64 (agent + streamIncrement) ^^^ mix64 stream)

/-- A SplitMix64 stream: a counter whose values are scrambled on output. -/
structure RandomStream where
  state : UInt64
deriving DecidableEq, Inhabited

namespace RandomStream

def ofSeed (seed : UInt64) : RandomStream := ⟨seed⟩

/-- The next word of the stream. -/
def next (stream : RandomStream) : UInt64 × RandomStream :=
  let state := stream.state + streamIncrement
  (mix64 state, ⟨state⟩)

/-- A number of the unit interval, one excluded, with 53 bits of precision. -/
def nextUnit (stream : RandomStream) : Float × RandomStream :=
  let (word, rest) := stream.next
  ((word >>> 11).toFloat / 9007199254740992.0, rest)

/-- Scales a word to the numbers below `bound` by the high half of their
product. -/
def scaleBelow (word bound : UInt64) : UInt64 :=
  (word.toNat * bound.toNat / UInt64.size).toUInt64

/-- A number below `bound`; zero when `bound` is zero. -/
def nextBelow (stream : RandomStream) (bound : UInt64) : UInt64 × RandomStream :=
  let (word, rest) := stream.next
  (scaleBelow word bound, rest)

end RandomStream

end BehaviorTree
