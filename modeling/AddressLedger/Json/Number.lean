import AddressLedger.Json.Basic
import AddressLedger.Text.Numeral

/-!
# Numbers in JSON text

The grammar of JSON numbers, and the value of one: a whole number if it is written as one and fits
64 bits, with or without sign, otherwise the nearest double. Minus zero is a double.
-/
namespace AddressLedger.Json

open Number Text

structure Numeral where
  decimal : Decimal
  /-- Whether it has neither fraction nor exponent. -/
  isWhole : Bool
  deriving DecidableEq

/-- Whether digits may be the whole part: at least one, and no zero before another. -/
def isWholePart : List Char → Bool
  | [] => false
  | c :: cs => c != '0' || cs.isEmpty

def scanFraction : List Char → Option (List Char × List Char)
  | '.' :: cs =>
    let (digits, rest) := spanDigits cs
    if digits.isEmpty then none else some (digits, rest)
  | cs => some ([], cs)

def scanExponent : List Char → Option (Option Int × List Char)
  | [] => some (none, [])
  | c :: cs =>
    if c == 'e' || c == 'E' then
      let (negative, cs) := splitSign cs
      let (digits, rest) := spanDigits cs
      if digits.isEmpty then none
      else some (some (if negative then -Int.ofNat (ofDigits digits)
        else Int.ofNat (ofDigits digits)), rest)
    else some (none, c :: cs)

def scanNumber (cs : List Char) : Option (Numeral × List Char) := do
  let (negative, cs) := match cs with
    | '-' :: cs => (true, cs)
    | cs => (false, cs)
  let (whole, rest) := spanDigits cs
  if !isWholePart whole then none
  let (fraction, rest') ← scanFraction rest
  let (exponent, rest'') ← scanExponent rest'
  return (⟨⟨negative, ofDigits (whole ++ fraction),
    exponent.getD 0 - Int.ofNat fraction.length⟩, fraction.isEmpty && exponent.isNone⟩, rest'')

/-- The nearest double, unless that is infinite. -/
def Numeral.float? (n : Numeral) : Option Float :=
  let x := n.decimal.toFloat
  if isFinite x then some x else none

/-- The whole number, if it is written as one and fits 64 bits. -/
def Numeral.integer? (n : Numeral) : Option Int :=
  if !n.isWhole then none
  else if n.decimal.negative then
    if 0 < n.decimal.digits ∧ n.decimal.digits ≤ Nat.pow 2 63 then
      some (-Int.ofNat n.decimal.digits)
    else none
  else if n.decimal.digits < Nat.pow 2 64 then some (Int.ofNat n.decimal.digits) else none

/-- The value of a number, unless it is beyond the doubles. -/
def Numeral.value? (n : Numeral) : Option Json :=
  match n.integer? with
  | some i => some (.integer i)
  | none => n.float?.map .float

end AddressLedger.Json
