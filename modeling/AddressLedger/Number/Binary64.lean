/-!
# Doubles as dyadic numbers

A finite double is `± mantissa * 2 ^ exponent`. The magnitudes are numbered in increasing order,
so that rounding a quotient is finding the number of the nearest magnitude: magnitude `k` has
exponent `k / 2 ^ 52 - 1075` and the implicit leading bit, except below `2 ^ 52`.
-/
namespace AddressLedger.Number

/-- The number `± mantissa * 2 ^ exponent`. -/
structure BinaryNumber where
  negative : Bool
  mantissa : Nat
  exponent : Int
  deriving DecidableEq

/-- The value of the leading bit that is not stored. -/
def implicitBit : Nat := Nat.pow 2 52

def signBit : Nat := Nat.pow 2 63

/-- The number of the magnitude of infinity; all greater ones belong to no number. -/
def infinityIndex : Nat := 0x7FF * implicitBit

/-- Mantissa and exponent of the `k`-th finite magnitude. -/
def magnitude (k : Nat) : Nat × Int :=
  if k < implicitBit then (k, -1074)
  else (implicitBit + k % implicitBit, Int.ofNat (k / implicitBit) - 1075)

def isNegative (x : Float) : Bool := signBit ≤ x.toBits.toNat

/-- The number of the magnitude of a double, whatever its sign. -/
def magnitudeIndex (x : Float) : Nat := x.toBits.toNat % signBit

/-- A double as a dyadic number, if it is finite. -/
def binary? (x : Float) : Option BinaryNumber :=
  let k := magnitudeIndex x
  if k < infinityIndex then
    let m := magnitude k
    some ⟨isNegative x, m.1, m.2⟩
  else none

def isFinite (x : Float) : Bool := magnitudeIndex x < infinityIndex

theorem exists_binary? {x : Float} (h : isFinite x = true) : ∃ d, binary? x = some d :=
  ⟨_, if_pos (of_decide_eq_true h)⟩

/-- The double with a given sign and number of its magnitude. -/
def ofMagnitude (negative : Bool) (k : Nat) : Float :=
  Float.ofBits (UInt64.ofNat (if negative then signBit + k else k))

/-- The quotient `num / den` rounded to a whole number, a half to the even neighbour. -/
def roundDiv (num den : Nat) : Nat :=
  let q := num / den
  let r := num % den
  if den < 2 * r || (2 * r == den && q % 2 == 1) then q + 1 else q

/-- The power of two at or below `num / den`, as its exponent. -/
def floorLog2 (num den : Nat) : Int :=
  let k : Int := Int.ofNat num.log2 - Int.ofNat den.log2
  if den * Nat.pow 2 k.toNat ≤ num * Nat.pow 2 (-k).toNat then k else k - 1

/-- The number of the magnitude nearest to `num / den`; too large a quotient gives infinity. -/
def nearestIndex (num den : Nat) : Nat :=
  let e := max (floorLog2 num den - 52) (-1074)
  let m := roundDiv (num * Nat.pow 2 (-e).toNat) (den * Nat.pow 2 e.toNat)
  min ((e + 1074).toNat * implicitBit + m) infinityIndex

/-- The double nearest to `± num / den`. -/
def ofRatio (negative : Bool) (num den : Nat) : Float :=
  ofMagnitude negative (if num = 0 then 0 else nearestIndex num den)

/-- The double nearest to a whole number. -/
def ofInt (n : Int) : Float := ofRatio (n < 0) n.natAbs 1

/-- The whole part of a dyadic number, rounded toward zero. -/
def BinaryNumber.truncate (d : BinaryNumber) : Int :=
  let n := d.mantissa * Nat.pow 2 d.exponent.toNat / Nat.pow 2 (-d.exponent).toNat
  if d.negative then -Int.ofNat n else Int.ofNat n

/-- The nearest value in the range of `Int64`. -/
def saturate (n : Int) : Int64 :=
  Int64.ofInt (max Int64.minValue.toInt (min n Int64.maxValue.toInt))

/-- The whole part of a finite double in the range of `Int64`; nothing for the others. -/
def truncate? (x : Float) : Option Int64 :=
  (binary? x).map fun d => saturate d.truncate

end AddressLedger.Number
