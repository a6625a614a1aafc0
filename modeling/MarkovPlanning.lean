import MarkovPlanning.Belief.AlphaVector
import MarkovPlanning.Belief.Basic
import MarkovPlanning.Decimal.Binary64
import MarkovPlanning.Decimal.Numeral
import MarkovPlanning.Decimal.Shortest
import MarkovPlanning.Entity.Basic
import MarkovPlanning.Entity.Buckets
import MarkovPlanning.Entity.Collection
import MarkovPlanning.Entity.Label
import MarkovPlanning.Entity.ProductSpace
import MarkovPlanning.Error
import MarkovPlanning.Horizon
import MarkovPlanning.Linear.Equation
import MarkovPlanning.Linear.Program
import MarkovPlanning.Linear.Simplex
import MarkovPlanning.Linear.System
import MarkovPlanning.Linear.Tableau
import MarkovPlanning.Mdp.Basic
import MarkovPlanning.Mdp.Dense
import MarkovPlanning.Mdp.Description
import MarkovPlanning.Mdp.PolicyIteration
import MarkovPlanning.Mdp.Stationary
import MarkovPlanning.Mdp.ValueIteration
import MarkovPlanning.Policy.Arena
import MarkovPlanning.Policy.Map
import MarkovPlanning.Policy.Map.Script
import MarkovPlanning.Policy.Script
import MarkovPlanning.Policy.Tree
import MarkovPlanning.Policy.Tree.Script
import MarkovPlanning.Policy.Vectors
import MarkovPlanning.Policy.Vectors.Script
import MarkovPlanning.Pomdp.Basic
import MarkovPlanning.Pomdp.Dense
import MarkovPlanning.Pomdp.Description
import MarkovPlanning.Pomdp.Envelope
import MarkovPlanning.Pomdp.Envelope.Positions
import MarkovPlanning.Pomdp.ErrorBound
import MarkovPlanning.Pomdp.Filter
import MarkovPlanning.Pomdp.Unroll
import MarkovPlanning.Pomdp.ValueIteration
import MarkovPlanning.Scalar
import MarkovPlanning.Table.Basic
import MarkovPlanning.Table.Pattern
import MarkovPlanning.Table.Probability
import MarkovPlanning.Table.Reward
import MarkovPlanning.Text.Blank
import MarkovPlanning.Text.Line
import MarkovPlanning.Text.Quoted
import MarkovPlanning.Text.Unassigned
import MarkovPlanning.Text.Visible
import MarkovPlanning.Proofs.Exact
import MarkovPlanning.Proofs.Double
import MarkovPlanning.Proofs.Fold
import MarkovPlanning.Proofs.Linear.Equation
import MarkovPlanning.Proofs.Linear.Pivot
import MarkovPlanning.Proofs.Linear.Point
import MarkovPlanning.Proofs.Linear.Run
import MarkovPlanning.Proofs.Linear.Maximize
import MarkovPlanning.Proofs.Linear.Answers
import MarkovPlanning.Proofs.Linear.Bland
import MarkovPlanning.Proofs.Linear.Termination
import MarkovPlanning.Proofs.Pomdp.Witness
import MarkovPlanning.Proofs.Pomdp.Envelope
import MarkovPlanning.Proofs.Clamped
import MarkovPlanning.Proofs.Entity.Sum
import MarkovPlanning.Proofs.Entity.Order
import MarkovPlanning.Proofs.Entity.Buckets
import MarkovPlanning.Proofs.Entity.Changes
import MarkovPlanning.Proofs.Entity.ProductSpace
import MarkovPlanning.Proofs.Pomdp.Filter
import MarkovPlanning.Proofs.Pomdp.Plan
import MarkovPlanning.Proofs.Belief.CrossSum
import MarkovPlanning.Proofs.Pomdp.Backup
import MarkovPlanning.Proofs.Policy.Vectors
import MarkovPlanning.Proofs.Policy.Tree
import MarkovPlanning.Proofs.Pomdp.Stages
import MarkovPlanning.Proofs.Pomdp.Optimal
import MarkovPlanning.Proofs.Pomdp.Attained
import MarkovPlanning.Proofs.Pomdp.Unroll
import MarkovPlanning.Proofs.Pomdp.Total
import MarkovPlanning.Proofs.Linear.System
import MarkovPlanning.Proofs.Linear.Pivots
import MarkovPlanning.Proofs.Linear.Matrix
import MarkovPlanning.Proofs.Mdp.Worth
import MarkovPlanning.Proofs.Mdp.Strategy
import MarkovPlanning.Proofs.Mdp.Bellman
import MarkovPlanning.Proofs.Mdp.Dense
import MarkovPlanning.Proofs.Mdp.Slack
import MarkovPlanning.Proofs.Mdp.Epochs
import MarkovPlanning.Proofs.Mdp.Blocks
import MarkovPlanning.Proofs.Mdp.Sweep
import MarkovPlanning.Proofs.Mdp.Trace
import MarkovPlanning.Proofs.Mdp.Loss
import MarkovPlanning.Proofs.Mdp.Evaluation
import MarkovPlanning.Proofs.Mdp.Improvement
import MarkovPlanning.Proofs.Mdp.Solvability
import MarkovPlanning.Proofs.Mdp.Overflow
import MarkovPlanning.Proofs.Mdp.Complete
import MarkovPlanning.Proofs.Pomdp.Contraction
import MarkovPlanning.Proofs.Pomdp.ErrorBound
import MarkovPlanning.Proofs.Pomdp.Choices
import MarkovPlanning.Proofs.Pomdp.Distance
import MarkovPlanning.Proofs.Pomdp.Forward
import MarkovPlanning.Proofs.Text.Line
import MarkovPlanning.Proofs.Text.Token
import MarkovPlanning.Proofs.Decimal.Digits
import MarkovPlanning.Proofs.Policy.Map.Script
import MarkovPlanning.Proofs.Policy.Vectors.Script
import MarkovPlanning.Proofs.Decimal.Nearest
import MarkovPlanning.Proofs.Decimal.Shortest
import MarkovPlanning.Proofs.Decimal.Numeral
import MarkovPlanning.Proofs.Linear.Rounding
import MarkovPlanning.Proofs.Linear.Chain
import MarkovPlanning.Proofs.Linear.Drift
import MarkovPlanning.Proofs.Linear.Tolerance
import MarkovPlanning.Proofs.Table.Resolution
import MarkovPlanning.Proofs.Table.History
import MarkovPlanning.Proofs.Reordered
import MarkovPlanning.Proofs.Text.Row
import MarkovPlanning.Proofs.Policy.Grammar
import MarkovPlanning.Proofs.Policy.Reader
import MarkovPlanning.Proofs.Policy.Map.Reader
import MarkovPlanning.Proofs.Policy.Vectors.Reader
import MarkovPlanning.Proofs.Policy.Tree.Shape
import MarkovPlanning.Proofs.Policy.Tree.Reader
import MarkovPlanning.Proofs.Policy.Files
import MarkovPlanning.Proofs.Policy.Tree.Script
import MarkovPlanning.Proofs.Policy.Raw
import MarkovPlanning.Proofs.Policy.Map.Raw
import MarkovPlanning.Proofs.Policy.Vectors.Raw
import MarkovPlanning.Proofs.Policy.Tree.Raw
import MarkovPlanning.Proofs.Policy.Faithful
import MarkovPlanning.Proofs.Policy.Arena
import MarkovPlanning.Proofs.Policy.Arena.Run
import MarkovPlanning.Proofs.Policy.Arena.Unfold
import MarkovPlanning.Proofs.Table.Widened
import MarkovPlanning.Proofs.Pomdp.Envelope.Positions
import MarkovPlanning.Proofs.Pomdp.Dominance
import MarkovPlanning.Proofs.Pomdp.Sparse
import MarkovPlanning.Proofs.Policy.Arena.Histories
import MarkovPlanning.Proofs.Pomdp.StepsToGo
import MarkovPlanning.Proofs.Mdp.Synchronous
import MarkovPlanning.Proofs.Policy.FirstFault
import MarkovPlanning.Proofs.Policy.Vectors.Greatest
import MarkovPlanning.Proofs.Entity.Construction
import MarkovPlanning.Proofs.Entity.Names
import MarkovPlanning.Proofs.Linear.Reachable
