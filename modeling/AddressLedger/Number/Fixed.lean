import AddressLedger.Number.Decimal

/-!
# Six decimal places

A double rounded to millionths from its exact value, a half going to the even neighbour, and its
text without superfluous zeros.
-/
namespace AddressLedger.Number

def million : Nat := 1000000

def BinaryNumber.millionths (d : BinaryNumber) : Nat :=
  roundDiv (d.mantissa * million * Nat.pow 2 d.exponent.toNat) (Nat.pow 2 (-d.exponent).toNat)

/-- A number of millionths with a point and six places. -/
def sixPlaces (n : Nat) : List Char :=
  digitsOf (n / million) ++ '.' :: padded 6 (n % million)

def dropTrailing (c : Char) (cs : List Char) : List Char :=
  (cs.reverse.dropWhile (· == c)).reverse

/-- A double with six places, then without trailing zeros and without a trailing point. -/
def amountText (x : Float) : String :=
  let sign := if isNegative x then ['-'] else []
  let cs := match binary? x with
    | some d => dropTrailing '.' (dropTrailing '0' (sign ++ sixPlaces d.millionths))
    | none => if magnitudeIndex x = infinityIndex then sign ++ "inf".toList else "NaN".toList
  if cs.isEmpty then "0" else String.ofList cs

end AddressLedger.Number
