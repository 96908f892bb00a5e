import AddressLedger.Number.Fixed
import AddressLedger.Proofs.Feed.Time
import AddressLedger.Proofs.Number.Digits
import Mathlib.Algebra.Order.Round
import Mathlib.Data.List.DropRight
import Mathlib.Tactic.FieldSimp
import Mathlib.Tactic.Positivity

/-!
# Amounts in text

The text of an amount denotes the amount rounded to millionths, a half to the even neighbour. Of the
six places the zeros at the end are dropped, and the point if no place is left. The zeros of the
whole part stay, as the point stands between them and those of the places.
-/
namespace AddressLedger.Number

variable {q : ℚ} {m n : ℤ} {num den : Nat} {c : Char} {cs : List Char} {x : Float}
  {d : BinaryNumber}

/-- A whole number nearest to a rational one; the even one if two are. -/
def IsRounded (q : ℚ) (n : ℤ) : Prop :=
  (∀ m : ℤ, |q - n| ≤ |q - m|) ∧ ∀ m : ℤ, m ≠ n → |q - m| = |q - n| → Even n

theorem half_le_abs_sub (hn : |q - n| ≤ 1 / 2) (hne : m ≠ n) : 1 / 2 ≤ |q - m| := by
  rw [abs_le] at hn
  rw [le_abs]
  rcases lt_or_gt_of_ne hne with hlt | hgt
  · have hstep : (m : ℚ) + 1 ≤ n := by exact_mod_cast hlt
    left
    linarith
  · have hstep : (n : ℚ) + 1 ≤ m := by exact_mod_cast hgt
    right
    linarith

theorem isRounded_iff : IsRounded q n ↔ |q - n| ≤ 1 / 2 ∧ (|q - n| = 1 / 2 → Even n) := by
  constructor
  · rintro ⟨hnearest, heven⟩
    refine ⟨(hnearest (round q)).trans (abs_sub_round q), fun hhalf => ?_⟩
    -- On the other side of a midpoint stands a number that is as near.
    rcases (abs_eq (by norm_num)).mp hhalf with hbelow | habove
    · apply heven (n + 1) (by omega)
      rw [hbelow, Int.cast_add, ← sub_sub, hbelow]
      norm_num
    · apply heven (n - 1) (by omega)
      rw [habove, Int.cast_sub, ← sub_add, habove]
      norm_num
  · rintro ⟨hclose, heven⟩
    constructor
    · intro m
      by_cases h : m = n
      · rw [h]
      · exact hclose.trans (half_le_abs_sub hclose h)
    · intro m h hsame
      exact heven (le_antisymm hclose (hsame ▸ half_le_abs_sub hclose h))

theorem IsRounded.unique (hm : IsRounded q m) (hn : IsRounded q n) : m = n := by
  rw [isRounded_iff] at hm hn
  by_contra h
  have hmid : |q - m| = 1 / 2 := le_antisymm hm.1 (half_le_abs_sub hn.1 h)
  have hmid' : |q - n| = 1 / 2 := le_antisymm hn.1 (half_le_abs_sub hm.1 (Ne.symm h))
  obtain ⟨a, rfl⟩ := hm.2 hmid
  obtain ⟨b, rfl⟩ := hn.2 hmid'
  have hclose : |((a + a : ℤ) : ℚ) - (b + b : ℤ)| ≤ 1 := by
    have htriangle := abs_sub_le ((a + a : ℤ) : ℚ) q (b + b : ℤ)
    rw [abs_sub_comm _ q] at htriangle
    linarith
  have hclose : |(a + a) - (b + b)| ≤ 1 := by exact_mod_cast hclose
  rw [abs_le] at hclose
  omega

theorem IsRounded.neg (h : IsRounded q n) : IsRounded (-q) (-n) := by
  have hdistance : |-q - (-n : ℤ)| = |q - n| := by
    rw [Int.cast_neg, neg_sub_neg, abs_sub_comm]
  rw [isRounded_iff] at h ⊢
  rwa [hdistance, even_neg]

theorem isRounded_add_of_le_half (hlow : 0 ≤ q) (hhigh : q ≤ 1 / 2) (hmid : q = 1 / 2 → Even n) :
    IsRounded (n + q) n := by
  rw [isRounded_iff, add_sub_cancel_left, abs_of_nonneg hlow]
  exact ⟨hhigh, hmid⟩

theorem isRounded_add_of_half_le (hlow : 1 / 2 ≤ q) (hhigh : q ≤ 1)
    (hmid : q = 1 / 2 → ¬ Even n) : IsRounded (n + q) (n + 1) := by
  have hdistance : |n + q - (n + 1 : ℤ)| = 1 - q := by
    rw [Int.cast_add, add_sub_add_left_eq_sub, abs_sub_comm, Int.cast_one,
      abs_of_nonneg (by linarith)]
  rw [isRounded_iff, hdistance, Int.even_add_one]
  exact ⟨by linarith, fun h => hmid (by linarith)⟩

theorem div_eq_add_mod_div (num den : ℕ) :
    (num : ℚ) / den = (num / den : ℕ) + (num % den : ℕ) / den := by
  rw [← Int.fract_div_natCast_eq_div_natCast_mod, ← Int.cast_natCast (num / den), Int.natCast_div,
    ← Rat.floor_natCast_div_natCast, Int.floor_add_fract]

theorem isRounded_roundDiv (num : Nat) (hden : 0 < den) :
    IsRounded ((num : ℚ) / den) (roundDiv num den : ℤ) := by
  have hpos : (0 : ℚ) < den := by exact_mod_cast hden
  have hrest : num % den < den := Nat.mod_lt _ hden
  rw [div_eq_add_mod_div, roundDiv, ← Int.cast_natCast (num / den)]
  generalize num / den = k
  generalize num % den = r at hrest ⊢
  have hle : (r : ℚ) / den ≤ 1 / 2 ↔ 2 * r ≤ den := by
    rw [div_le_div_iff₀ hpos two_pos, one_mul, mul_comm]
    norm_cast
  have hge : (1 : ℚ) / 2 ≤ r / den ↔ den ≤ 2 * r := by
    rw [div_le_div_iff₀ two_pos hpos, one_mul, mul_comm]
    norm_cast
  have hmid : (r : ℚ) / den = 1 / 2 ↔ 2 * r = den := by
    rw [le_antisymm_iff, hle, hge, ← le_antisymm_iff]
  split
  · rename_i hup
    have hone : (r : ℚ) / den ≤ 1 := by
      rw [div_le_one hpos]
      exact_mod_cast hrest.le
    simp only [Bool.or_eq_true, Bool.and_eq_true, decide_eq_true_eq, beq_iff_eq] at hup
    push_cast
    apply isRounded_add_of_half_le (hge.mpr (by omega)) hone
    rw [hmid, Int.even_coe_nat, Nat.even_iff]
    omega
  · rename_i hdown
    simp only [Bool.or_eq_true, Bool.and_eq_true, decide_eq_true_eq, beq_iff_eq] at hdown
    apply isRounded_add_of_le_half (by positivity) (hle.mpr (by omega))
    rw [hmid, Int.even_coe_nat, Nat.even_iff]
    omega

theorem dropTrailing_eq (c : Char) (cs : List Char) :
    dropTrailing c cs = cs.rdropWhile (· == c) := rfl

theorem exists_dropTrailing (c : Char) (cs : List Char) :
    ∃ k, cs = dropTrailing c cs ++ List.replicate k c := by
  refine ⟨(cs.rtakeWhile (· == c)).length, ?_⟩
  have hdropped : cs.rtakeWhile (· == c) = List.replicate (cs.rtakeWhile (· == c)).length c := by
    rw [List.eq_replicate_iff]
    exact ⟨rfl, fun x hx => by simpa using List.mem_rtakeWhile_imp hx⟩
  rw [← hdropped, dropTrailing_eq, List.rdropWhile_append_rtakeWhile]

theorem getLast?_dropTrailing (c : Char) (cs : List Char) :
    (dropTrailing c cs).getLast? ≠ some c := by
  intro h
  have hnot := List.head?_dropWhile_not (· == c) cs.reverse
  rw [dropTrailing, List.getLast?_reverse] at h
  simp [h] at hnot

theorem dropTrailing_of_getLast? (h : cs.getLast? ≠ some c) : dropTrailing c cs = cs := by
  rw [dropTrailing_eq, List.rdropWhile_eq_self_iff]
  intro hne hlast
  rw [List.getLast?_eq_getLast_of_ne_nil hne, beq_iff_eq.mp hlast] at h
  exact h rfl

theorem dropTrailing_append_cons {x : Char} (hx : x ≠ c) (cs ds : List Char) :
    dropTrailing c (cs ++ x :: ds) = cs ++ x :: dropTrailing c ds := by
  induction ds using List.reverseRecOn with
  | nil => exact List.rdropWhile_concat_neg _ _ _ (by simpa using hx)
  | append_singleton ds y ih =>
    simp only [dropTrailing_eq] at ih ⊢
    rw [← List.cons_append, ← List.append_assoc, List.rdropWhile_concat, List.rdropWhile_concat, ih]
    split <;> simp

/-- A decimal number as it is written: with a minus sign or not, with the digits of the whole part,
and with places after a point or without a point. -/
structure PlainNumber where
  negative : Bool
  whole : List Char
  places : List Char

namespace PlainNumber

def text (p : PlainNumber) : List Char :=
  (if p.negative then ['-'] else []) ++ p.whole ++
    if p.places.isEmpty then [] else '.' :: p.places

def value (p : PlainNumber) : ℚ :=
  (if p.negative then -1 else 1) *
    ((ofDigits p.whole : ℚ) + (ofDigits p.places : ℚ) / 10 ^ p.places.length)

/-- There are digits only, one at least before the point, and the last place is not zero. -/
structure IsTidy (p : PlainNumber) : Prop where
  isDigit : ∀ c ∈ p.whole ++ p.places, c.isDigit = true
  whole_ne_nil : p.whole ≠ []
  getLast?_places : p.places.getLast? ≠ some '0'

end PlainNumber

def plainMillionths (negative : Bool) (n : Nat) : PlainNumber :=
  ⟨negative, digitsOf (n / million), dropTrailing '0' (padded 6 (n % million))⟩

theorem million_eq : million = 10 ^ 6 := rfl

theorem whole_plainMillionths (negative : Bool) (n : Nat) :
    (plainMillionths negative n).whole = digitsOf (n / 10 ^ 6) := by
  rw [← million_eq, plainMillionths]

theorem isTidy_plainMillionths (negative : Bool) (n : Nat) :
    (plainMillionths negative n).IsTidy := by
  refine ⟨fun c hc => ?_, digitsOf_ne_nil _, getLast?_dropTrailing _ _⟩
  rcases List.mem_append.mp hc with hwhole | hplace
  · exact isDigit_of_mem_digitsOf hwhole
  · exact isDigit_of_mem_padded ((List.rdropWhile_prefix _ _).subset hplace)

theorem value_plainMillionths (negative : Bool) (n : Nat) :
    (plainMillionths negative n).value = (if negative then -1 else 1) * ((n : ℚ) / 10 ^ 6) := by
  obtain ⟨k, hk⟩ := exists_dropTrailing '0' (padded 6 (n % 10 ^ 6))
  have hlength := length_padded (by decide) (Nat.mod_lt n (by decide : 0 < 10 ^ 6))
  have hdigits := ofDigits_padded 6 (n % 10 ^ 6)
  have hsplit := div_eq_add_mod_div n (10 ^ 6)
  rw [PlainNumber.value, plainMillionths, million_eq]
  dsimp only
  -- The zeros that are dropped count for nothing, and the places are fewer by their number.
  generalize dropTrailing '0' (padded 6 (n % 10 ^ 6)) = places at hk ⊢
  rw [hk, List.length_append, List.length_replicate] at hlength
  rw [hk, ofDigits_append, ofDigits_replicate_zero, List.length_replicate, Nat.add_zero] at hdigits
  have hplaces : (ofDigits places : ℚ) / 10 ^ places.length = (n % 10 ^ 6 : ℕ) / 10 ^ 6 := by
    rw [← hdigits, ← hlength, pow_add, Nat.cast_mul, Nat.cast_pow, Nat.cast_ofNat]
    field_simp
  rw [Nat.cast_pow, Nat.cast_ofNat] at hsplit
  rw [ofDigits_digitsOf, hplaces, hsplit]

theorem getLast?_ne_point {ds : List Char} (hne : ds ≠ []) (hdigit : ∀ c ∈ ds, c.isDigit = true)
    (cs : List Char) : (cs ++ ds).getLast? ≠ some '.' := by
  rw [List.getLast?_append_of_ne_nil _ hne]
  intro hlast
  exact absurd (hdigit '.' (List.mem_of_getLast? hlast)) (by decide)

/-- Six places without the zeros at their end, and without the point if nothing follows it. -/
theorem dropTrailing_sixPlaces (negative : Bool) (n : Nat) :
    dropTrailing '.' (dropTrailing '0' ((if negative then ['-'] else []) ++ sixPlaces n)) =
      (plainMillionths negative n).text := by
  rw [sixPlaces, ← List.append_assoc, dropTrailing_append_cons (by decide), PlainNumber.text,
    plainMillionths]
  generalize (if negative then ['-'] else []) = sign
  have hwhole : ∀ c ∈ digitsOf (n / million), c.isDigit = true := fun _ => isDigit_of_mem_digitsOf
  cases hplaces : dropTrailing '0' (padded 6 (n % million)) with
  | nil =>
    have hlast := getLast?_ne_point (digitsOf_ne_nil _) hwhole sign
    rw [dropTrailing_eq, List.rdropWhile_concat_pos _ _ _ (by decide), ← dropTrailing_eq,
      dropTrailing_of_getLast? hlast]
    simp
  | cons c places =>
    have hkept : c :: places <+: padded 6 (n % million) := hplaces ▸ List.rdropWhile_prefix _ _
    have hlast := getLast?_ne_point (List.cons_ne_nil c places)
      (fun _ hx => isDigit_of_mem_padded (hkept.subset hx)) (sign ++ digitsOf (n / million) ++ ['.'])
    rw [List.append_cons, dropTrailing_of_getLast? hlast]
    simp

theorem negative_of_binary? (h : binary? x = some d) : isNegative x = d.negative := by
  rw [binary?] at h
  split at h
  · obtain rfl := Option.some.inj h
    rfl
  · cases h

theorem text_ne_nil (negative : Bool) (n : Nat) : (plainMillionths negative n).text ≠ [] := by
  simp [PlainNumber.text, plainMillionths, digitsOf_ne_nil]

theorem amountText_eq (h : binary? x = some d) :
    amountText x = String.ofList (plainMillionths d.negative d.millionths).text := by
  rw [amountText, h, negative_of_binary? h]
  simp only [dropTrailing_sixPlaces, List.isEmpty_iff, text_ne_nil, if_false]

theorem natAbs_signed (negative : Bool) (k : ℕ) :
    (if negative then -k else k : ℤ).natAbs = k := by
  cases negative <;> simp

theorem isRounded_millionths (d : BinaryNumber) :
    IsRounded (d.value * 10 ^ 6) (if d.negative then -d.millionths else d.millionths) := by
  have hmagnitude : IsRounded (((d.mantissa * 2 ^ d.exponent.toNat : ℕ) : ℚ) /
      ((2 ^ (-d.exponent).toNat : ℕ) : ℚ) * 10 ^ 6) d.millionths := by
    have hround : IsRounded (((d.mantissa * million * 2 ^ d.exponent.toNat : ℕ) : ℚ) /
        ((2 ^ (-d.exponent).toNat : ℕ) : ℚ)) d.millionths :=
      isRounded_roundDiv _ (Nat.two_pow_pos _)
    have hmillion : (million : ℚ) = 10 ^ 6 := by norm_num [million]
    rwa [mul_right_comm, Nat.cast_mul _ million, hmillion, ← div_mul_eq_mul_div] at hround
  rw [BinaryNumber.value]
  cases d.negative
  · simpa using hmagnitude
  · simpa using hmagnitude.neg

/-- The text of a finite amount keeps its exact value up to millionths. One whole number and no other
is the amount in millionths rounded, and the text is a plain number that is worth so many: with the
sign of the amount, with the digits of the whole part as they are, and with no zero at the end of the
places, nor a point if there are none. -/
theorem amountText_keeps_value (h : isFinite x = true) :
    ∃ (d : BinaryNumber) (n : ℤ) (p : PlainNumber), binary? x = some d ∧
      (∀ m, IsRounded (d.value * 10 ^ 6) m ↔ m = n) ∧
      amountText x = String.ofList p.text ∧ p.value = n / 10 ^ 6 ∧ p.negative = d.negative ∧
      p.whole = digitsOf (n.natAbs / 10 ^ 6) ∧ p.IsTidy := by
  obtain ⟨d, hbinary⟩ := exists_binary? h
  have hrounded := isRounded_millionths d
  refine ⟨d, _, plainMillionths d.negative d.millionths, hbinary, fun m => ⟨fun hm =>
    hm.unique hrounded, ?_⟩, amountText_eq hbinary, ?_, rfl, ?_, isTidy_plainMillionths _ _⟩
  · rintro rfl
    exact hrounded
  · rw [value_plainMillionths]
    cases d.negative <;> simp [neg_div]
  · rw [natAbs_signed, whole_plainMillionths]

example : amountText 0.0078125 = "0.007812" := by decide +kernel

/-- An amount that is rounded up to a power of ten keeps the zeros of its whole part. -/
theorem amountText_of_almost_hundred :
    isFinite 99.9999999 = true ∧ amountText 99.9999999 = "100" ∧
    ∃ (d : BinaryNumber) (n : ℤ) (p : PlainNumber), binary? 99.9999999 = some d ∧
      (∀ m, IsRounded (d.value * 10 ^ 6) m ↔ m = n) ∧
      amountText 99.9999999 = String.ofList p.text ∧ p.value = n / 10 ^ 6 ∧
      p.negative = d.negative ∧ p.whole = digitsOf (n.natAbs / 10 ^ 6) ∧ p.IsTidy :=
  have hfinite : isFinite 99.9999999 = true := by decide +kernel
  ⟨hfinite, by decide +kernel, amountText_keeps_value hfinite⟩

end AddressLedger.Number
