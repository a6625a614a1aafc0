/-
How many backups an error bound takes.

Each backup brings the value nearer to the value of an endless span by the
discount factor, starting from a distance that the range of the rewards bounds.
The number of backups is the whole part of `(log epsilon - log range) / log
discount`, and at least one.
-/
import MarkovPlanning.Decimal.Numeral
import MarkovPlanning.Pomdp.ValueIteration

namespace MarkovPlanning

/-- Scalars with a logarithm and a whole part. -/
class Logarithm (α : Type) where
  /-- The natural logarithm. -/
  log : α → α
  /-- The greatest natural number below a value, zero if there is none. -/
  wholePart : α → Nat

/-- Whole parts of doubles stop at the greatest number of 64 bits. -/
instance : Logarithm Float where
  log := Float.log
  wholePart x := x.floor.toUInt64.toNat

/-- Why there is no number of backups for an error bound. -/
inductive BoundFault (α : Type) where
  /-- The discount factor is not strictly between zero and one. -/
  | discount (discount : α)
  /-- The bound is not positive. -/
  | bound (epsilon : α)

namespace BoundFault

variable {α : Type} [Numeral α]

def message : BoundFault α → String
  | .discount factor =>
      "incompatible problem shape: an error bound needs a discount factor strictly between 0 " ++
        "and 1, got " ++ Numeral.write factor
  | .bound epsilon =>
      "invalid definition: the error bound must be positive, got " ++ Numeral.write epsilon

end BoundFault

namespace Pomdp

variable {α : Type} [Scalar α] [Logarithm α]

/-- The range of rewards below which every range counts as this. -/
def leastRange : α := 1e-6

/-- The distance between the greatest and the least reward, as far as it is known and finite. -/
def rewardRange (bounds : Bounds α) : α :=
  match bounds.greatest, bounds.least with
  | some greatest, some least =>
    if Scalar.isFinite (greatest - least) then Scalar.greater (greatest - least) leastRange
    else leastRange
  | _, _ => leastRange

/-- The number of backups after which the error is at most `epsilon`. -/
def backupsFor (pomdp : Pomdp α) (epsilon : α) : Except (BoundFault α) Nat :=
  let discount := pomdp.horizon.discount
  if ¬ (0 < discount ∧ discount < 1) then .error (.discount discount)
  else if ¬ 0 < epsilon then .error (.bound epsilon)
  else
    let ratio := (Logarithm.log epsilon - Logarithm.log (rewardRange pomdp.rewards.bounds)) /
      Logarithm.log discount
    .ok (max (Logarithm.wholePart ratio) 1)

end Pomdp

namespace EnvelopeIteration

variable {α : Type} [Scalar α] [Logarithm α]

/-- The same settings with the number of backups for an error bound. -/
def withErrorBound (solver : EnvelopeIteration α) (pomdp : Pomdp α) (epsilon : α) :
    Except (BoundFault α) (EnvelopeIteration α) := do
  let backups ← pomdp.backupsFor epsilon
  return solver.withBackups backups

end EnvelopeIteration

end MarkovPlanning
