/-
The arithmetic that planning computes in.

Every algorithm of the library is written once, over any type with the four
operations, the two comparisons and decimal literals.  Run at `Float` it is the
program; read over an ordered field it is the mathematics the program
approximates.  Nothing here assumes that the operations obey a law, so a
statement proved for every `Scalar` holds of floating point bit for bit.

Comparisons decide everything a floating-point number can say about itself: a
value that is not comparable with itself is no number, and a value whose
difference with itself is not zero is infinite.  `isZero`, `isFinite`, `greater`
and `lesser` below are written that way and need no further primitive.
-/
namespace MarkovPlanning

/-- Ordered arithmetic, with no law assumed of it. -/
class Scalar (α : Type) where
  [toZero : Zero α]
  [toOne : One α]
  [toAdd : Add α]
  [toSub : Sub α]
  [toMul : Mul α]
  [toDiv : Div α]
  [toNeg : Neg α]
  [toLT : LT α]
  [toLE : LE α]
  [toNatCast : NatCast α]
  [toOfScientific : OfScientific α]
  decidableLT : DecidableLT α
  decidableLE : DecidableLE α
  /-- The value below all others, where there is one.  Only values above it count when the
  greatest of several is looked for. -/
  least? : Option α

instance : Scalar Float where
  toZero := ⟨0⟩
  toOne := ⟨1⟩
  toNatCast := ⟨Float.ofNat⟩
  decidableLT := inferInstance
  decidableLE := inferInstance
  least? := some (-1 / 0)

namespace Scalar

variable {α : Type} [Scalar α]

/-! ### Operations

A type that has operations of its own keeps them: those of `Scalar` are looked for last.
-/

instance (priority := low) instZero : Zero α := toZero

instance (priority := low) instOne : One α := toOne

instance (priority := low) instAdd : Add α := toAdd

instance (priority := low) instSub : Sub α := toSub

instance (priority := low) instMul : Mul α := toMul

instance (priority := low) instDiv : Div α := toDiv

instance (priority := low) instNeg : Neg α := toNeg

instance (priority := low) instLT : LT α := toLT

instance (priority := low) instLE : LE α := toLE

instance (priority := low) instNatCast : NatCast α := toNatCast

instance (priority := low) instOfScientific : OfScientific α := toOfScientific

instance (priority := low) instDecidableLT : DecidableLT α := decidableLT

instance (priority := low) instDecidableLE : DecidableLE α := decidableLE

/-! ### Comparisons and sums -/

/-- Distance from zero. -/
def abs (x : α) : α := if x < 0 then -x else x

/-- The greater of two values; a value that compares with nothing gives way to the other. -/
def greater (x y : α) : α := if x < y then y else if x ≤ x then x else y

/-- The lesser of two values; a value that compares with nothing gives way to the other. -/
def lesser (x y : α) : α := if y < x then y else if x ≤ x then x else y

/-- The nearest value between zero and one.  A value that compares with nothing stays. -/
def clamp01 (x : α) : α := if x < 0 then 0 else if 1 < x then 1 else x

/-- Whether two values compare as equal, as zeros of either sign do. -/
def agrees (x y : α) : Bool := x ≤ y && y ≤ x

/-- Whether a value compares as equal with zero. -/
def isZero (x : α) : Bool := agrees x 0

/-- Whether a value is a number and not infinite: then nothing is left when it is taken away
from itself. -/
def isFinite (x : α) : Bool := isZero (x - x)

/-- Whether a value may be chosen as the greatest of several. -/
def isCandidate (x : α) : Bool :=
  match (least? : Option α) with
  | none => true
  | some least => least < x

/-- The greatest of no values: the least of all, or zero where there is none. -/
def lowest : α := (least? : Option α).getD 0

/-- The sum of a list, added from the left. -/
def sum (xs : List α) : α := xs.foldl (· + ·) 0

/-- The sum of the products of the entries two lists have in common, added from the left. -/
def dot (xs ys : List α) : α := sum (List.zipWith (· * ·) xs ys)

end Scalar

end MarkovPlanning
