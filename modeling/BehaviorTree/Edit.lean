import BehaviorTree.Tree

/-!
# Edits

An edit is a computation on a state that may fail.  The state is returned in
either case, so that what a refused edit leaves behind is part of its result.
-/

namespace BehaviorTree

/-- What an edit can run out of halfway. -/
inductive Shortage where
  | hashes (failure : MintingExhausted)
  /-- A Parallel would have to follow its designated child past the largest index. -/
  | indices
deriving DecidableEq

def Shortage.message : Shortage → String
  | hashes failure => failure.message
  | indices => "attempt to add with overflow"

/-- Why an edit did not go through: it was refused, or it ran out of hashes or
indices halfway. -/
inductive EditError where
  | refused (cause : TopologyError)
  | exhausted (cause : Shortage)
deriving DecidableEq

def EditError.message : EditError → String
  | refused cause => cause.message
  | exhausted cause => cause.message

abbrev Edit (σ β : Type) : Type := EStateM EditError σ β

namespace Edit

def refuse {σ β : Type} (cause : TopologyError) : Edit σ β :=
  throw (.refused cause)

/-- Goes on with the value of a check that was passed. -/
def require {σ β : Type} : Except TopologyError β → Edit σ β
  | .ok value => pure value
  | .error cause => refuse cause

/-- Runs an edit on a part of a larger state. -/
def zoom {σ τ β : Type} (view : σ → τ) (update : τ → σ → σ) (edit : Edit τ β) :
    Edit σ β := fun state =>
  match edit (view state) with
  | .ok value part => .ok value (update part state)
  | .error cause part => .error cause (update part state)

end Edit

end BehaviorTree
