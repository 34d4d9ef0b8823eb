import BehaviorTree.Random

/-!
# Drawing children by weight

A pool holds the children that may still be drawn with their weights.  A draw
removes one entry, in proportion to the weights, or uniformly when the weights
sum to zero or to no finite number.
-/

namespace BehaviorTree

/-- Sum of the weights, first to last. -/
def totalWeight (pool : List (Nat × Float)) : Float :=
  pool.foldl (fun total entry => total + entry.2) 0.0

/-- Position of the first entry whose weight exceeds what is left of `rest`
when the weights before it are taken off; the last entry if there is none. -/
def weightedPosition (rest : Float) : List (Nat × Float) → Nat
  | [] => 0
  | [_] => 0
  | (_, weight) :: remaining =>
    if rest < weight then 0 else weightedPosition (rest - weight) remaining + 1

/-- Draws the position of an entry of a pool. -/
def drawPosition (pool : List (Nat × Float)) (stream : RandomStream) :
    Nat × RandomStream :=
  let total := totalWeight pool
  if total > 0.0 && total.isFinite then
    let (unit, rest) := stream.nextUnit
    (weightedPosition (unit * total) pool, rest)
  else
    let (position, rest) := stream.nextBelow pool.length.toUInt64
    (position.toNat, rest)

/-- The outcome of a draw. -/
structure Drawn where
  index : Nat
  pool : List (Nat × Float)
  stream : RandomStream

/-- Removes one entry from a pool and hands out its index. -/
def draw (pool : List (Nat × Float)) (stream : RandomStream) : Option Drawn :=
  let (position, rest) := drawPosition pool stream
  (pool[position]?).map fun entry =>
    { index := entry.1, pool := pool.eraseIdx position, stream := rest }

end BehaviorTree
