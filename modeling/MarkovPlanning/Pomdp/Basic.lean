/-
Markov decision processes whose state is hidden.

After every action an observation is made, whose chance depends on the action and
on the state it led to.  The reward may depend on all four of them.
-/
import MarkovPlanning.Entity.Collection
import MarkovPlanning.Horizon
import MarkovPlanning.Table.Probability
import MarkovPlanning.Table.Reward

namespace MarkovPlanning

/-- A finite partially observable Markov decision process. -/
structure Pomdp (α : Type) where
  states : Collection .state
  actions : Collection .action
  observations : Collection .observation
  transitions : TransitionTable α
  observationChances : ObservationTable α
  rewards : ObservationRewards α
  horizon : Horizon α

end MarkovPlanning
