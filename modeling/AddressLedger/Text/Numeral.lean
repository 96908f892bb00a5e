import AddressLedger.Number.Decimal

/-!
# Numbers in settings and queries

Whole numbers with an optional plus sign, and floating-point numbers with an optional sign, an
optional point among their digits, an optional exponent, or one of the names of infinity and of
not-a-number.
-/
namespace AddressLedger.Text

/-- Splits a text at its first character that is not a decimal digit. -/
def spanDigits (cs : List Char) : List Char × List Char :=
  (cs.takeWhile Char.isDigit, cs.dropWhile Char.isDigit)

/-- A whole number up to `most`: digits, after a plus sign or not. -/
def natural? (most : Nat) (s : String) : Option Nat :=
  let cs := match s.toList with
    | '+' :: cs => cs
    | cs => cs
  if !cs.isEmpty && cs.all Char.isDigit && Number.ofDigits cs ≤ most then
    some (Number.ofDigits cs)
  else none

def maxUInt16 : Nat := Nat.pow 2 16 - 1

def maxUInt32 : Nat := Nat.pow 2 32 - 1

def maxUInt64 : Nat := Nat.pow 2 64 - 1

/-- The sign before a number and the characters after it. -/
def splitSign : List Char → Bool × List Char
  | '-' :: cs => (true, cs)
  | '+' :: cs => (false, cs)
  | cs => (false, cs)

/-- The exponent that ends a number: nothing, or `e` with a sign or not and digits. -/
def exponentPart? : List Char → Option Int
  | [] => some 0
  | c :: cs =>
    let (negative, ds) := splitSign cs
    if (c == 'e' || c == 'E') && !ds.isEmpty && ds.all Char.isDigit then
      some (if negative then -Int.ofNat (Number.ofDigits ds) else Int.ofNat (Number.ofDigits ds))
    else none

/-- A number without sign: digits with a point anywhere among them or none, and an exponent. -/
def decimal? (negative : Bool) (cs : List Char) : Option Number.Decimal :=
  let (whole, rest) := spanDigits cs
  let (fraction, rest) := match rest with
    | '.' :: rest => spanDigits rest
    | rest => ([], rest)
  if whole.isEmpty && fraction.isEmpty then none
  else (exponentPart? rest).map fun e =>
    ⟨negative, Number.ofDigits (whole ++ fraction), e - Int.ofNat fraction.length⟩

/-- A floating-point number, the nearest double of what is written. -/
def float? (s : String) : Option Float :=
  let (negative, cs) := splitSign s.toList
  let name := String.ofList (cs.map Char.toLower)
  if name = "inf" ∨ name = "infinity" then
    some (Number.ofMagnitude negative Number.infinityIndex)
  else if name = "nan" then some (0.0 / 0.0)
  else (decimal? negative cs).map Number.Decimal.toFloat

/-- A truth value, in one spelling each. -/
def bool? (s : String) : Option Bool :=
  if s = "true" then some true else if s = "false" then some false else none

end AddressLedger.Text
