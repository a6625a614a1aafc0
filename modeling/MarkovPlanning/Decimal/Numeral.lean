/-
Numerals: how numbers are written in policy files and read from them.

A whole number is a run of ASCII digits, perhaps after a plus sign.  A value is
written in positional notation with the fewest digits that read back to it, never
with an exponent and without a point if it is whole.  Reading is more liberal: it
takes a sign, digits on either side of a point, an exponent, and the words for
infinity and for the value that is no number, in letters of either case.
-/
import MarkovPlanning.Decimal.Shortest
import MarkovPlanning.Scalar

namespace MarkovPlanning

namespace Decimal

/-! ### Digits -/

/-- The value of a run of digits. -/
def ofDigits (digits : List Char) : Nat :=
  digits.foldl (fun value c => value * 10 + (c.toNat - '0'.toNat)) 0

/-- A non-empty run of digits as a number. -/
def digits? (text : List Char) : Option Nat :=
  if text.isEmpty || !text.all Char.isDigit then none else some (ofDigits text)

/-- The greatest whole number that is read. -/
def greatestWhole : Nat := 0xffffffffffffffff

/-- Reads a whole number. -/
def whole? (text : String) : Option Nat := do
  let digits :=
    match text.toList with
    | '+' :: rest => rest
    | digits => digits
  let value ← digits? digits
  guard (value ≤ greatestWhole)
  return value

/-! ### Writing -/

/-- A decimal in positional notation. -/
def Scientific.positional (decimal : Scientific) : List Char :=
  let digits := Nat.toDigits 10 decimal.digits
  match decimal.exponent with
  | .ofNat zeros => digits ++ List.replicate zeros '0'
  | .negSucc n =>
    let places := n + 1
    if places < digits.length then
      digits.take (digits.length - places) ++ '.' :: digits.drop (digits.length - places)
    else
      '0' :: '.' :: List.replicate (places - digits.length) '0' ++ digits

/-- The text of the double with a given pattern of bits. -/
def writeBits (bits : Nat) : String :=
  let negative := signBit ≤ bits
  let size := bits % signBit
  if infinityBits < size then "NaN"
  else
    let unsigned :=
      if size = infinityBits then "inf".toList
      else if size = 0 then ['0']
      else (shortest size).positional
    String.ofList (if negative then '-' :: unsigned else unsigned)

example : writeBits 0x3ff8000000000000 = "1.5" := by decide +kernel
example : writeBits 0xc059000000000000 = "-100" := by decide +kernel
example : writeBits 0x3f50624dd2f1a9fc = "0.001" := by decide +kernel

/-! ### Reading -/

/-- The exponent after the digits: nothing, or a letter, perhaps a sign, and digits. -/
def exponent? : List Char → Option Int
  | [] => some 0
  | c :: rest =>
    if c.toLower = 'e' then
      match rest with
      | '+' :: digits => (digits? digits).map Int.ofNat
      | '-' :: digits => (digits? digits).map fun n => -(n : Int)
      | digits => (digits? digits).map Int.ofNat
    else none

/-- A numeral without a sign: digits, a point among them, an exponent after them. -/
def scientific? (text : List Char) : Option Scientific := do
  let whole := text.takeWhile Char.isDigit
  let rest := text.dropWhile Char.isDigit
  let (fraction, rest) :=
    match rest with
    | '.' :: after => (after.takeWhile Char.isDigit, after.dropWhile Char.isDigit)
    | rest => ([], rest)
  guard (!(whole.isEmpty && fraction.isEmpty))
  let power ← exponent? rest
  return { digits := ofDigits (whole ++ fraction), exponent := power - fraction.length }

/-- The double nearest to a decimal.  Far outside the range of doubles the exponent alone
decides, and the number itself is not formed. -/
def Scientific.nearestBits (decimal : Scientific) : Nat :=
  if decimal.digits = 0 then 0
  else
    let magnitude := (Nat.toDigits 10 decimal.digits).length + decimal.exponent
    if 400 < magnitude then infinityBits
    else if magnitude < -400 then 0
    else
      match decimal.exponent with
      | .ofNat n => nearest (decimal.digits * Nat.pow 10 n) 1
      | .negSucc n => nearest decimal.digits (Nat.pow 10 (n + 1))

/-- The pattern of bits of the value that is no number. -/
def notANumberBits : Nat := infinityBits + leadingBit / 2

/-- Reads a value without a sign. -/
def readUnsigned? (text : List Char) : Option Nat :=
  let word := String.ofList (text.map Char.toLower)
  if word = "inf" ∨ word = "infinity" then some infinityBits
  else if word = "nan" then some notANumberBits
  else (scientific? text).map Scientific.nearestBits

/-- Reads a value as the pattern of bits of a double. -/
def readBits? (text : String) : Option Nat :=
  match text.toList with
  | '-' :: rest => (readUnsigned? rest).map (· + signBit)
  | '+' :: rest => readUnsigned? rest
  | unsigned => readUnsigned? unsigned

example : readBits? "-1.5e2" = some 0xc062c00000000000 := by decide +kernel
example : readBits? ".5" = some 0x3fe0000000000000 := by decide +kernel
example : readBits? "." = none := by decide +kernel

end Decimal

/-- Scalars that can be written down and read. -/
class Numeral (α : Type) where
  write : α → String
  read? : String → Option α

instance : Numeral Float where
  write x := Decimal.writeBits x.toBits.toNat
  read? text := (Decimal.readBits? text).map fun bits => Float.ofBits (UInt64.ofNat bits)

end MarkovPlanning
