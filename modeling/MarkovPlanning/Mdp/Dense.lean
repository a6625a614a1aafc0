/-
Decision processes in numbers.

States and actions are numbered in the order of their collections, and every
transition of positive probability is listed with its reward, so that the tables
are resolved once.  Planning then only ever asks for the value of an action in a
state, given values of the states that may follow, and for the best action by that
measure.
-/
import MarkovPlanning.Mdp.Basic

namespace MarkovPlanning

/-- A transition to a numbered state. -/
structure Transition (α : Type) (n : Nat) where
  next : Fin n
  probability : α
  reward : α

/-- A decision process with `n` numbered states and `m` numbered actions, at least one of each. -/
structure DenseMdp (α : Type) (n m : Nat) where
  states : Vector State n
  actions : Vector Action m
  states_pos : 0 < n
  actions_pos : 0 < m
  discount : α
  /-- The possible transitions of an action in a state, in the order of the states they lead
  to. -/
  transitions : Vector (Vector (List (Transition α n)) m) n

/-- The members of a collection, numbered from zero. -/
def Collection.toVector {kind : Kind} (entities : Collection kind) :
    Vector (Entity kind) entities.size :=
  ⟨entities.toList.toArray, by simp⟩

namespace Mdp

variable {α : Type} [Scalar α]

/-- Resolves the tables for every state, action and following state. -/
def dense (mdp : Mdp α) : Except ShapeFault (DenseMdp α mdp.states.size mdp.actions.size) :=
  let states := mdp.states.toVector
  let actions := mdp.actions.toVector
  if h : 0 < mdp.states.size ∧ 0 < mdp.actions.size then
    .ok {
      states, actions
      states_pos := h.1
      actions_pos := h.2
      discount := mdp.horizon.discount
      transitions := states.map fun state => actions.map fun action =>
        (List.finRange mdp.states.size).filterMap fun next =>
          let probability := mdp.transitions.chance state action (states.get next)
          if 0 < probability then
            some { next, probability, reward := mdp.rewards.reward state action (states.get next) }
          else none }
  else .error (.emptyMdp mdp.states.size mdp.actions.size)

end Mdp

namespace DenseMdp

variable {α : Type} [Scalar α] {n m : Nat}

/-- The first action. -/
def firstAction (model : DenseMdp α n m) : Fin m := ⟨0, model.actions_pos⟩

/-- The expected reward of an action and the discounted value of what follows. -/
def actionValue (model : DenseMdp α n m) (values : Vector α n) (state : Fin n)
    (action : Fin m) : α :=
  ((model.transitions.get state).get action).foldl
    (fun value transition =>
      value + transition.probability *
        (transition.reward + model.discount * values.get transition.next))
    0

/-- The greatest value of an action, and an action that has it. -/
structure Backup (α : Type) (m : Nat) where
  value : α
  action : Fin m

/-- Takes up an action if it is better than the best so far. -/
def Backup.improve (best : Option (Backup α m)) (value : α) (action : Fin m) :
    Option (Backup α m) :=
  match best with
  | none => if Scalar.isCandidate value then some { value, action } else none
  | some backup => if backup.value < value then some { value, action } else best

/-- The greatest value of an action in a state, and the first action that has it. -/
def backup (model : DenseMdp α n m) (values : Vector α n) (state : Fin n) : Backup α m :=
  let best := (List.finRange m).foldl
    (fun best action => Backup.improve best (model.actionValue values state action) action) none
  best.getD { value := Scalar.lowest, action := model.firstAction }

/-- The backups of all states against the same values. -/
def backups (model : DenseMdp α n m) (values : Vector α n) : Vector (Backup α m) n :=
  Vector.ofFn (model.backup values)

/-- The entities behind a numbered choice. -/
def mapping (model : DenseMdp α n m) (choice : Vector (Fin m) n) : EntityMap .state Action :=
  Std.ExtTreeMap.ofList ((List.finRange n).map fun state =>
    (model.states.get state, model.actions.get (choice.get state)))

/-- The entities behind numbered values. -/
def valueMap (model : DenseMdp α n m) (values : Vector α n) : EntityMap .state α :=
  Std.ExtTreeMap.ofList ((List.finRange n).map fun state =>
    (model.states.get state, values.get state))

end DenseMdp

end MarkovPlanning
