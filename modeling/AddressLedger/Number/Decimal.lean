import AddressLedger.Number.Binary64
import AddressLedger.Number.Digits

/-!
# Decimal numbers and doubles

A decimal number `± digits * 10 ^ exponent` is read as the nearest double, ties to the even
mantissa. A finite double is written with the fewest digits that read back as it.
-/
namespace AddressLedger.Number

/-- The number `± digits * 10 ^ exponent`. -/
structure Decimal where
  negative : Bool
  digits : Nat
  exponent : Int
  deriving DecidableEq

/--
The nearest double. Exponents that put the number beyond the largest or below half the smallest
magnitude, whatever its digits are, are settled without the power of ten.
-/
def Decimal.toFloat (d : Decimal) : Float :=
  let order := d.exponent + Int.ofNat (digitsOf d.digits).length
  if d.digits = 0 ∨ order < -400 then ofMagnitude d.negative 0
  else if 400 < order then ofMagnitude d.negative infinityIndex
  else ofRatio d.negative (d.digits * Nat.pow 10 d.exponent.toNat)
    (Nat.pow 10 (-d.exponent).toNat)

/-- The decimal number that equals a dyadic one. -/
def BinaryNumber.toDecimal (d : BinaryNumber) : Decimal :=
  if d.mantissa = 0 ∨ 0 ≤ d.exponent then ⟨d.negative, d.mantissa * Nat.pow 2 d.exponent.toNat, 0⟩
  else ⟨d.negative, d.mantissa * Nat.pow 5 (-d.exponent).toNat, d.exponent⟩

/-- A decimal number rounded to `n` significant digits, ties to even. -/
def Decimal.roundTo (n : Nat) (d : Decimal) : Decimal :=
  let dropped := (digitsOf d.digits).length - n
  ⟨d.negative, roundDiv d.digits (Nat.pow 10 dropped), d.exponent + Int.ofNat dropped⟩

/-- The decimals by which a double is tried in turn: one significant digit to seventeen. -/
def BinaryNumber.candidates (d : BinaryNumber) : List Decimal :=
  (List.range 17).map fun n => d.toDecimal.roundTo (n + 1)

end AddressLedger.Number
