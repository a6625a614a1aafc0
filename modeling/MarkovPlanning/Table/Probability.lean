/-
Tables of probabilities.

Every value written is brought into the unit interval, and what nothing was
written about has probability zero.  Transition tables are keyed by the state, the
action and the state that follows; observation tables by the action, the state it
led to and the observation made there.
-/
import MarkovPlanning.Table.Basic
import MarkovPlanning.Entity.Collection
import MarkovPlanning.Scalar

namespace MarkovPlanning

/-- A sparse table of probabilities. -/
structure ProbabilityTable (kinds : List Kind) (α : Type) where
  table : Table kinds α := {}

namespace ProbabilityTable

variable {kinds : List Kind} {α : Type} [Scalar α]

/-- Writes a probability, brought into the unit interval. -/
def insert (table : ProbabilityTable kinds α) (pattern : Pattern kinds) (probability : α) :
    ProbabilityTable kinds α where
  table := table.table.insert pattern (Scalar.clamp01 probability)

/-- The table of a list of writes. -/
def ofList (writes : List (Pattern kinds × α)) : ProbabilityTable kinds α :=
  writes.foldl (fun table write => table.insert write.1 write.2) {}

/-- The probability of a key, zero unless some written pattern covers it. -/
def get (table : ProbabilityTable kinds α) (key : Pattern kinds) : α :=
  (table.table.resolve? key).getD 0

end ProbabilityTable

/-- The chance of the last state after the action in the first one. -/
abbrev TransitionTable := ProbabilityTable [.state, .action, .state]

/-- The chance of the observation after the action has led to the state. -/
abbrev ObservationTable := ProbabilityTable [.action, .state, .observation]

namespace TransitionTable

variable {α : Type} [Scalar α]

def set (table : TransitionTable α) (state : Option State) (action : Option Action)
    (next : Option State) (probability : α) : TransitionTable α :=
  table.insert (.cons state (.cons action (.cons next .nil))) probability

def chance (table : TransitionTable α) (state : State) (action : Action) (next : State) : α :=
  table.get (.cons (some state) (.cons (some action) (.cons (some next) .nil)))

/-- The states that may follow, in order. -/
def successors (table : TransitionTable α) (states : Collection .state) (state : State)
    (action : Action) : List State :=
  states.toList.filter fun next => 0 < table.chance state action next

end TransitionTable

namespace ObservationTable

variable {α : Type} [Scalar α]

def set (table : ObservationTable α) (action : Option Action) (state : Option State)
    (observation : Option Observation) (probability : α) : ObservationTable α :=
  table.insert (.cons action (.cons state (.cons observation .nil))) probability

def chance (table : ObservationTable α) (action : Action) (state : State)
    (observation : Observation) : α :=
  table.get (.cons (some action) (.cons (some state) (.cons (some observation) .nil)))

/-- The observations that may be made, in order. -/
def available (table : ObservationTable α) (observations : Collection .observation)
    (action : Action) (state : State) : List Observation :=
  observations.toList.filter fun observation => 0 < table.chance action state observation

end ObservationTable

end MarkovPlanning
