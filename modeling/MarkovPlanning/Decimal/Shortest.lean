/-
The shortest decimal that stands for a double.

The reals that are nearest to a given double form an interval around it, which
holds its ends when the significand is even.  Decimals with few digits lie on
coarse grids, so the shortest decimal in the interval is found by trying the grids
of the powers of ten from the coarsest: on the first grid that has a point in the
interval, one of the two neighbours of the double is such a point.  Of two, the
nearer is taken, and the upper one if they are equally near.
-/
import MarkovPlanning.Decimal.Binary64

namespace MarkovPlanning.Decimal

/-- A natural number times a power of ten. -/
structure Scientific where
  digits : Nat
  exponent : Int
deriving DecidableEq, Repr

/-- A double and its interval, all over one denominator. -/
structure Neighbourhood where
  value : Nat
  lower : Nat
  upper : Nat
  den : Nat
  /-- Whether the ends belong to the interval. -/
  closed : Bool

/-- The interval of the positive double with a given pattern of bits. -/
def neighbourhood (bits : Nat) : Neighbourhood :=
  let m := significand bits
  -- a quarter of the distance to the next double above
  let (quarter, den) := scaleDown 1 1 (2 - exponent bits)
  let below := if m = leadingBit ∧ leastExponent < exponent bits then 1 else 2
  { value := 4 * m * quarter
    lower := (4 * m - below) * quarter
    upper := (4 * m + 2) * quarter
    den
    closed := m % 2 = 0 }

/-- The same interval in units of `10 ^ exponent`. -/
def Neighbourhood.inUnits (n : Neighbourhood) (exponent : Int) : Neighbourhood :=
  match exponent with
  | .ofNat k => { n with den := n.den * Nat.pow 10 k }
  | .negSucc k =>
    let factor := Nat.pow 10 (k + 1)
    { n with value := n.value * factor, lower := n.lower * factor, upper := n.upper * factor }

/-- Whether a natural number lies in an interval. -/
def Neighbourhood.holds (n : Neighbourhood) (point : Nat) : Bool :=
  if n.closed then n.lower ≤ point * n.den && point * n.den ≤ n.upper
  else n.lower < point * n.den && point * n.den < n.upper

/-- The natural number in an interval that is nearest to its value. -/
def Neighbourhood.nearest? (n : Neighbourhood) : Option Nat :=
  let floor := n.value / n.den
  match n.holds floor, n.holds (floor + 1) with
  | false, false => none
  | true, false => some floor
  | false, true => some (floor + 1)
  | true, true => some (if 2 * (n.value % n.den) < n.den then floor else floor + 1)

/-- An exponent of ten whose grid is too coarse for every double. -/
def coarsest : Nat := 310

/-- An exponent of ten whose grid has a point in the interval of every double. -/
def finest : Int := -324

/-- The decimal nearest to the value, if any in the interval, on the grid of `10 ^ exponent`. -/
def Neighbourhood.onGrid? (n : Neighbourhood) (exponent : Int) : Option Scientific :=
  (n.inUnits exponent).nearest?.map fun digits => { digits, exponent }

/-- The shortest decimal in the interval of a positive finite double.  The finest grid has a
point in it, so the search always ends with one. -/
def shortest (bits : Nat) : Scientific :=
  let n := neighbourhood bits
  let found := (List.range (coarsest + finest.natAbs + 1)).findSome? fun (step : Nat) =>
    n.onGrid? (coarsest - step)
  found.getD { digits := 0, exponent := 0 }

example : shortest 0x3fd3333333333334 = { digits := 30000000000000004, exponent := -17 } := by
  decide +kernel
example : shortest 0x1 = { digits := 5, exponent := -324 } := by decide +kernel

end MarkovPlanning.Decimal
