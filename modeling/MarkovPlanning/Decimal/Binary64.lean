/-
Double precision and exact arithmetic.

A positive finite double is a natural number times a power of two.  `significand`
and `exponent` take a pattern of bits apart, and `nearest` goes the other way: it
finds the pattern of the double nearest to a quotient of natural numbers, of two
equally near ones the one with an even last bit.  The patterns of the positive
doubles count upwards, so a significand that is rounded up past its last bit
carries into the exponent by plain addition.
-/
namespace MarkovPlanning.Decimal

/-- The number of bits after the leading one. -/
def fractionBits : Nat := 52

/-- The exponent of the least positive double. -/
def leastExponent : Int := -1074

/-- The leading one, which is understood unless the exponent is the least. -/
def leadingBit : Nat := 1 <<< fractionBits

/-- The bit of the sign. -/
def signBit : Nat := 1 <<< 63

/-- The pattern of infinity. -/
def infinityBits : Nat := 0x7ff <<< fractionBits

/-- The stored exponent, which is zero only where there is no leading one. -/
def storedExponent (bits : Nat) : Nat := (bits % signBit) >>> fractionBits

/-- The significand of the double with a given pattern of bits, the sign left aside. -/
def significand (bits : Nat) : Nat :=
  let fraction := bits % leadingBit
  if storedExponent bits = 0 then fraction else fraction + leadingBit

/-- The power of two that goes with the significand. -/
def exponent (bits : Nat) : Int := leastExponent + (storedExponent bits - 1 : Nat)

/-- The quotient `num / den`, divided by `2 ^ exponent`, as a numerator and a denominator. -/
def scaleDown (num den : Nat) (exponent : Int) : Nat × Nat :=
  match exponent with
  | .ofNat n => (num, den <<< n)
  | .negSucc n => (num <<< (n + 1), den)

/-- The natural number nearest to a quotient; a half goes to the even neighbour. -/
def roundHalfEven (num den : Nat) : Nat :=
  let whole := num / den
  let rest := 2 * (num % den)
  if rest < den then whole else if den < rest then whole + 1 else whole + whole % 2

/-- The exponent at which the quotient `num / den` has a significand of 53 bits, or the least
exponent if that is greater. -/
def exponentFor (num den : Nat) : Int :=
  let guess := max ((num.log2 : Int) - den.log2 - 53) leastExponent
  let (n, d) := scaleDown num den guess
  if n / d < 2 * leadingBit then guess else guess + 1

/-- The pattern of the double nearest to `num / den`. -/
def nearest (num den : Nat) : Nat :=
  if num = 0 then 0
  else
    let exponent := exponentFor num den
    let (n, d) := scaleDown num den exponent
    min ((exponent - leastExponent).toNat * leadingBit + roundHalfEven n d) infinityBits

example : nearest 1 1 = 0x3ff0000000000000 := by decide
example : nearest 1 10 = 0x3fb999999999999a := by decide
example : nearest (4 * leadingBit + 3) 1 = 0x4350000000000001 := by decide
example : nearest 3 (Nat.pow 10 200) = 0x16825eed8ffb39c1 := by decide +kernel

end MarkovPlanning.Decimal
