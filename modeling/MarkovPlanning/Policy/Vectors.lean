/-
Policies that choose by the belief.

A vector policy has one set of alpha vectors per slot of its span.  The value of a
belief is the greatest value of a vector there, and the action is that of the
vector.  Like a policy map, it can be followed along a cursor.
-/
import MarkovPlanning.Belief.AlphaVector
import MarkovPlanning.Horizon

namespace MarkovPlanning

/-- A set of alpha vectors for every slot of a span. -/
structure VectorPolicy (α : Type) where
  span : Span
  gammas : Vector (List (AlphaVector α)) span.slots
  /-- The epoch to be decided next. -/
  cursor : Nat := 0

namespace VectorPolicy

variable {α : Type}

/-- The policy without any vectors. -/
def empty (span : Span) : VectorPolicy α where
  span
  gammas := Vector.replicate span.slots []

/-- The vectors of an epoch. -/
def gamma (policy : VectorPolicy α) (epoch : Nat) : Except PolicyFault (List (AlphaVector α)) :=
  if h : epoch < policy.span.slots then .ok policy.gammas[epoch]
  else .error (.epochOutside epoch policy.span.slots)

/-- Replaces the vectors of an epoch. -/
def set (policy : VectorPolicy α) (epoch : Nat) (gamma : List (AlphaVector α)) :
    Except PolicyFault (VectorPolicy α) :=
  if h : epoch < policy.span.slots then
    .ok { policy with gammas := policy.gammas.set epoch gamma }
  else .error (.epochOutside epoch policy.span.slots)

variable [Scalar α]

/-- The greatest value of a set of vectors at a belief, with the action of the first vector that
has it.  The first vector is taken up whatever its value. -/
def best? (gamma : List (AlphaVector α)) (belief : Belief α) : Option (α × Action) :=
  gamma.foldl
    (fun best alpha =>
      let value := alpha.dot belief
      match best with
      | none => some (value, alpha.action)
      | some (top, _) => if top < value then some (value, alpha.action) else best)
    none

/-- The value of a belief at an epoch and the action that has it. -/
def value (policy : VectorPolicy α) (epoch : Nat) (belief : Belief α) :
    Except PolicyFault (α × Action) := do
  let gamma ← policy.gamma epoch
  match best? gamma belief with
  | some best => .ok best
  | none => .error (.noVectors epoch)

/-- The action for a belief at an epoch. -/
def get (policy : VectorPolicy α) (epoch : Nat) (belief : Belief α) :
    Except PolicyFault Action := do
  let (_, action) ← policy.value epoch belief
  return action

/-- The action for a belief at the cursor, and the policy after that decision. -/
def next (policy : VectorPolicy α) (belief : Belief α) :
    Except PolicyFault (Action × VectorPolicy α) := do
  let action ← policy.get policy.cursor belief
  return (action, { policy with cursor := policy.span.next policy.cursor })

/-- Puts the cursor back to the first epoch. -/
def reset (policy : VectorPolicy α) : VectorPolicy α := { policy with cursor := 0 }

end VectorPolicy

end MarkovPlanning
