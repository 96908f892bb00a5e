import AddressLedger.Feed.Item
import Mathlib.Data.Rat.Floor
import Mathlib.Tactic.Linarith

/-!
# Exact times

The time of an item as a rational number, and its whole seconds: the time without its fraction, in
the range of `Int64`. Whole seconds keep the order of times, and a time that is a whole number in
the range is its own. Before zero they lie after the time.
-/
namespace AddressLedger.Number

def BinaryNumber.value (d : BinaryNumber) : ℚ :=
  (if d.negative then -1 else 1) *
    (((d.mantissa * 2 ^ d.exponent.toNat : ℕ) : ℚ) / ((2 ^ (-d.exponent).toNat : ℕ) : ℚ))

def wholePart (q : ℚ) : Int := if 0 ≤ q then ⌊q⌋ else ⌈q⌉

def seconds (t : ℚ) : Int64 := saturate (wholePart t)

variable {q r t u : ℚ}

theorem wholePart_of_nonneg (h : 0 ≤ q) : wholePart q = ⌊q⌋ := if_pos h

theorem wholePart_neg (q : ℚ) : wholePart (-q) = -wholePart q := by
  rcases lt_trichotomy q 0 with h | rfl | h
  · rw [wholePart, wholePart, if_pos (by linarith), if_neg (not_le.2 h), Int.floor_neg]
  · rfl
  · rw [wholePart, wholePart, if_neg (by linarith), if_pos h.le, Int.ceil_neg]

theorem wholePart_mono (h : q ≤ r) : wholePart q ≤ wholePart r := by
  rw [wholePart, wholePart]
  split
  · rename_i hq
    rw [if_pos (hq.trans h)]
    exact Int.floor_le_floor h
  · rename_i hq
    have hnonpos : ⌈q⌉ ≤ 0 := Int.ceil_le.2 (by exact_mod_cast (not_le.1 hq).le)
    split
    · rename_i hr
      exact hnonpos.trans (Int.floor_nonneg.2 hr)
    · exact Int.ceil_le_ceil h

@[simp] theorem wholePart_intCast (n : Int) : wholePart (n : ℚ) = n := by
  simp [wholePart]

theorem BinaryNumber.truncate_eq (d : BinaryNumber) : d.truncate = wholePart d.value := by
  have hpos : wholePart (((d.mantissa * 2 ^ d.exponent.toNat : ℕ) : ℚ) /
      ((2 ^ (-d.exponent).toNat : ℕ) : ℚ)) =
        ((d.mantissa * 2 ^ d.exponent.toNat / 2 ^ (-d.exponent).toNat : ℕ) : Int) := by
    rw [wholePart_of_nonneg (by positivity), Rat.floor_natCast_div_natCast, Int.natCast_div]
  rw [truncate, value]
  cases d.negative
  · simpa using hpos.symm
  · simpa [wholePart_neg] using hpos.symm

theorem toInt_saturate (n : Int) :
    (saturate n).toInt = max (-2 ^ 63) (min n (2 ^ 63 - 1)) := by
  have least : Int64.minValue.toInt = -2 ^ 63 := Int64.toInt_minValue
  have greatest : Int64.maxValue.toInt = 2 ^ 63 - 1 := Int64.toInt_maxValue
  rw [saturate, least, greatest, Int64.toInt_ofInt_of_le (by omega) (by omega)]

theorem seconds_mono (h : t ≤ u) : seconds t ≤ seconds u := by
  have hwhole := wholePart_mono h
  rw [Int64.le_iff_toInt_le, seconds, seconds, toInt_saturate, toInt_saturate]
  omega

theorem seconds_toInt (c : Int64) : seconds (c.toInt : ℚ) = c := by
  have low := Int64.le_toInt c
  have high := Int64.toInt_lt c
  rw [← Int64.toInt_inj, seconds, wholePart_intCast, toInt_saturate]
  omega

/-- A time before a cursor has whole seconds up to the cursor. -/
theorem seconds_le_of_lt {c : Int64} (h : t < c.toInt) : seconds t ≤ c := by
  rw [← seconds_toInt c]
  exact seconds_mono h.le

theorem lt_of_seconds_lt {c : Int64} (h : seconds t < c) : t < c.toInt := by
  by_contra hle
  have hmono := seconds_mono (not_lt.1 hle)
  rw [seconds_toInt] at hmono
  exact Int64.not_lt.2 hmono h

theorem truncate?_eq (x : Float) : truncate? x = (binary? x).map fun d => seconds d.value := by
  simp only [truncate?, seconds, BinaryNumber.truncate_eq]

end AddressLedger.Number

namespace AddressLedger.Feed.Item
open Number

/-- The exact time of an item, if it has a finite one. -/
def time? (i : Item) : Option ℚ := i.timeAt.bind fun x => (binary? x).map BinaryNumber.value

def isOlder (i : Item) (cursor : Option Int64) : Bool :=
  cursor.all fun c => i.time?.any fun t => t < c.toInt

/-- Whether an item lies strictly before its own whole seconds: its time is negative and has a
fraction, or is out of range. -/
def isEarly (i : Item) : Bool := i.isOlder i.timestamp

theorem timestamp_eq (i : Item) : i.timestamp = i.time?.map seconds := by
  rw [timestamp, time?, Option.map_bind]
  simp [Function.comp_def, truncate?_eq]

variable {i : Item} {t : ℚ}

theorem timestamp_of_time (h : i.time? = some t) : i.timestamp = some (seconds t) := by
  rw [timestamp_eq, h]
  rfl

theorem isOlder_iff (h : i.time? = some t) (c : Int64) :
    i.isOlder (some c) = true ↔ t < c.toInt := by
  simp [isOlder, h]

end AddressLedger.Feed.Item
