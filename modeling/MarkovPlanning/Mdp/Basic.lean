/-
Markov decision processes whose state is seen, and their solutions.

A process is given by collections of states and actions, sparse tables of
transitions and rewards, and a horizon.  Every action is open in every state.
-/
import MarkovPlanning.Policy.Map
import MarkovPlanning.Table.Probability
import MarkovPlanning.Table.Reward

namespace MarkovPlanning

/-- A finite Markov decision process. -/
structure Mdp (α : Type) where
  states : Collection .state
  actions : Collection .action
  transitions : TransitionTable α
  rewards : TransitionRewards α
  horizon : Horizon α

/-- What a planner found out about a decision process. -/
structure MdpSolution (α : Type) where
  policy : PolicyMap
  /-- The value of every state at the first epoch. -/
  values : EntityMap .state α
  /-- The rounds it took: sweeps, improvements, or epochs of a finite horizon. -/
  iterations : Nat
  converged : Bool

namespace MdpSolution

/-- The value of a state, zero for a state that is not in the process. -/
def value {α : Type} [Scalar α] (solution : MdpSolution α) (state : State) : α :=
  solution.values.getD state 0

end MdpSolution

end MarkovPlanning
