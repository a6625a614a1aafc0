/-
Value iteration over sets of alpha vectors.

The value with a number of decisions to go is the upper envelope of a set of
vectors, and one more decision backs the set up and prunes it.  Over a finite span
every set is kept, for the epoch that has so many decisions to go.  Over an
endless span a fixed number of backups is made, and only the last set is kept.
-/
import MarkovPlanning.Policy.Vectors
import MarkovPlanning.Pomdp.Dense
import MarkovPlanning.Pomdp.Envelope

namespace MarkovPlanning

/-- Settings of value iteration for hidden processes. -/
structure EnvelopeIteration (α : Type) where
  /-- The number of backups for an endless span. -/
  backups : Nat
  envelope : Envelope.Settings α

namespace EnvelopeIteration

variable {α : Type} [Scalar α]

/-- A single backup, and the usual settings for envelopes. -/
def standard : EnvelopeIteration α where
  backups := 1
  envelope := .standard

/-- The same settings with another number of backups, at least one. -/
def withBackups (solver : EnvelopeIteration α) (backups : Nat) : EnvelopeIteration α :=
  { solver with backups := max backups 1 }

/-- The set of one more decision. -/
def step (solver : EnvelopeIteration α) (model : DensePomdp α) (prior : List (DenseAlpha α)) :
    List (DenseAlpha α) :=
  Envelope.survivors solver.envelope (·.values) (model.backups prior).flatten

/-- The sets of one, two, and so on up to a number of decisions. -/
def stages (solver : EnvelopeIteration α) (model : DensePomdp α) :
    (decisions : Nat) → Vector (List (DenseAlpha α)) decisions
  | 0 => #v[]
  | decisions + 1 =>
    let before := stages solver model decisions
    before.push (solver.step model (before.back?.getD []))

/-- Solves a hidden process. -/
def solve (solver : EnvelopeIteration α) (pomdp : Pomdp α) :
    Except ShapeFault (VectorPolicy α) := do
  let model ← pomdp.dense
  let span := pomdp.horizon.toSpan
  if h : 0 < span.epochs then
    let gammas := (stages solver model span.epochs).reverse.map (·.map model.sparse)
    return { span, gammas := gammas.cast (by simp only [Span.slots]; omega) }
  else
    let gamma := Nat.repeat (solver.step model) solver.backups []
    return { span, gammas := Vector.replicate span.slots (gamma.map model.sparse) }

end EnvelopeIteration

end MarkovPlanning
