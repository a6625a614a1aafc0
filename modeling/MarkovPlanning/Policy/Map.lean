/-
Policies that choose by the state.

A policy map has one mapping from states to actions per slot of its span.  It can
be asked for the action of a state at an epoch, and it can be followed: a cursor
stands at the epoch to be decided next and moves on with every decision, except
that an endless span has only one epoch to stand at.
-/
import MarkovPlanning.Entity.Collection
import MarkovPlanning.Horizon

namespace MarkovPlanning

/-- A mapping from states to actions for every slot of a span. -/
structure PolicyMap where
  span : Span
  epochs : Vector (EntityMap .state Action) span.slots
  /-- The epoch to be decided next. -/
  cursor : Nat := 0

namespace PolicyMap

/-- The policy that decides nothing. -/
def empty (span : Span) : PolicyMap where
  span
  epochs := Vector.replicate span.slots ∅

/-- The mapping of an epoch. -/
def mapping (policy : PolicyMap) (epoch : Nat) :
    Except PolicyFault (EntityMap .state Action) :=
  if h : epoch < policy.span.slots then .ok policy.epochs[epoch]
  else .error (.epochOutside epoch policy.span.slots)

/-- Decides a state at an epoch, in place of what was decided there. -/
def set (policy : PolicyMap) (epoch : Nat) (state : State) (action : Action) :
    Except PolicyFault PolicyMap :=
  if h : epoch < policy.span.slots then
    let mapping := policy.epochs[epoch].insert state action
    .ok { policy with epochs := policy.epochs.set epoch mapping }
  else .error (.epochOutside epoch policy.span.slots)

/-- The action of a state at an epoch. -/
def get (policy : PolicyMap) (epoch : Nat) (state : State) : Except PolicyFault Action := do
  let mapping ← policy.mapping epoch
  match mapping[state]? with
  | some action => .ok action
  | none => .error (.noAction state epoch)

theorem get_eq_ok_iff {policy : PolicyMap} {epoch : Nat} (h : epoch < policy.span.slots)
    {state : State} {action : Action} :
    policy.get epoch state = .ok action ↔ policy.epochs[epoch][state]? = some action := by
  have hmapping : policy.mapping epoch = .ok policy.epochs[epoch] := dif_pos h
  simp only [get, hmapping, bind, Except.bind]
  cases policy.epochs[epoch][state]? <;> simp

theorem lt_slots_of_get {policy : PolicyMap} {epoch : Nat} {state : State} {action : Action}
    (hget : policy.get epoch state = .ok action) : epoch < policy.span.slots := by
  unfold get mapping at hget
  split at hget
  · assumption
  · cases hget

/-- The action of a state at the cursor, and the policy after that decision. -/
def next (policy : PolicyMap) (state : State) : Except PolicyFault (Action × PolicyMap) := do
  let action ← policy.get policy.cursor state
  return (action, { policy with cursor := policy.span.next policy.cursor })

/-- Puts the cursor back to the first epoch. -/
def reset (policy : PolicyMap) : PolicyMap := { policy with cursor := 0 }

/-- The number of decisions in all epochs. -/
def size (policy : PolicyMap) : Nat :=
  policy.epochs.foldl (fun size mapping => size + mapping.size) 0

end PolicyMap

end MarkovPlanning
