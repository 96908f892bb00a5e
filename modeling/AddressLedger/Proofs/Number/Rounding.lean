import AddressLedger.Number.Decimal
import AddressLedger.Proofs.Number.Digits
import Mathlib

/-!
# Doubles read back

A finite double is the double nearest to its exact value. So its exact decimal, which has its value,
is read as the double itself.
-/
namespace AddressLedger.Number

variable {num den m k : Nat} {e : Int}

theorem two_zpow_eq (e : Int) : (2 : ℚ) ^ e = 2 ^ e.toNat / 2 ^ (-e).toNat := by
  obtain ⟨n, rfl | rfl⟩ := e.eq_nat_or_neg
  · simp
  · simp

theorem two_zpow_le_div_iff (num : Nat) (hden : 0 < den) (e : Int) :
    (2 : ℚ) ^ e ≤ num / den ↔ den * 2 ^ e.toNat ≤ num * 2 ^ (-e).toNat := by
  have hden' : (0 : ℚ) < den := by exact_mod_cast hden
  rw [two_zpow_eq, div_le_div_iff₀ (by positivity) hden']
  norm_cast
  rw [Nat.mul_comm den]

theorem two_zpow_log2_le {n : Nat} (hn : n ≠ 0) : (2 : ℚ) ^ (n.log2 : ℤ) ≤ n := by
  exact_mod_cast Nat.log2_self_le hn

theorem lt_two_zpow_log2 (n : Nat) : (n : ℚ) < 2 ^ ((n.log2 : ℤ) + 1) := by
  exact_mod_cast Nat.lt_log2_self (n := n)

theorem two_zpow_lt_div (hnum : num ≠ 0) (hden : 0 < den) :
    (2 : ℚ) ^ ((num.log2 : ℤ) - den.log2 - 1) < num / den := by
  have hden' : (0 : ℚ) < den := by exact_mod_cast hden
  have hbelow := lt_two_zpow_log2 den
  rw [lt_div_iff₀ hden']
  calc (2 : ℚ) ^ ((num.log2 : ℤ) - den.log2 - 1) * den
      < 2 ^ ((num.log2 : ℤ) - den.log2 - 1) * 2 ^ ((den.log2 : ℤ) + 1) := by gcongr
    _ = 2 ^ (num.log2 : ℤ) := by
      rw [← zpow_add₀ two_ne_zero]
      congr 1
      ring
    _ ≤ num := two_zpow_log2_le hnum

theorem div_lt_two_zpow (num : Nat) (hden : 0 < den) :
    (num : ℚ) / den < 2 ^ ((num.log2 : ℤ) - den.log2 + 1) := by
  have hden' : (0 : ℚ) < den := by exact_mod_cast hden
  have habove := two_zpow_log2_le hden.ne'
  rw [div_lt_iff₀ hden']
  calc (num : ℚ) < 2 ^ ((num.log2 : ℤ) + 1) := lt_two_zpow_log2 num
    _ = 2 ^ ((num.log2 : ℤ) - den.log2 + 1) * 2 ^ (den.log2 : ℤ) := by
      rw [← zpow_add₀ two_ne_zero]
      congr 1
      ring
    _ ≤ 2 ^ ((num.log2 : ℤ) - den.log2 + 1) * den := by gcongr

theorem lt_of_two_zpow_lt {a b : Int} (h : (2 : ℚ) ^ a < 2 ^ b) : a < b :=
  (zpow_lt_zpow_iff_right₀ one_lt_two).1 h

theorem floorLog2_eq (hden : 0 < den) (hlow : (2 : ℚ) ^ e ≤ num / den)
    (hhigh : (num : ℚ) / den < 2 ^ (e + 1)) : floorLog2 num den = e := by
  have hnum : num ≠ 0 := by
    rintro rfl
    rw [Nat.cast_zero, zero_div] at hlow
    exact absurd hlow (not_le.2 (by positivity))
  have hle : e < num.log2 - den.log2 + 1 :=
    lt_of_two_zpow_lt (hlow.trans_lt (div_lt_two_zpow num hden))
  have hge : (num.log2 : ℤ) - den.log2 - 1 < e + 1 :=
    lt_of_two_zpow_lt ((two_zpow_lt_div hnum hden).trans hhigh)
  have hguess := two_zpow_le_div_iff num hden ((num.log2 : ℤ) - den.log2)
  simp only [floorLog2, Int.ofNat_eq_natCast, Nat.pow_eq]
  split
  · rename_i hfits
    have hbelow := lt_of_two_zpow_lt ((hguess.2 hfits).trans_lt hhigh)
    omega
  · rename_i hfits
    have habove := lt_of_two_zpow_lt (hlow.trans_lt (not_le.1 (mt hguess.1 hfits)))
    omega

theorem roundDiv_mul_left (hden : 0 < den) (m : Nat) : roundDiv (den * m) den = m := by
  have hne : (0 == den) = false := by simpa using hden.ne
  simp [roundDiv, Nat.mul_div_cancel_left m hden, Nat.mul_mod_right, hne]

theorem div_eq_mul_zpow (hden : 0 < den) (h : num * 2 ^ (-e).toNat = den * 2 ^ e.toNat * m) :
    (num : ℚ) / den = m * 2 ^ e := by
  have hden' : (den : ℚ) ≠ 0 := by exact_mod_cast hden.ne'
  have hcast : (num : ℚ) * 2 ^ (-e).toNat = den * 2 ^ e.toNat * m := by exact_mod_cast h
  rw [two_zpow_eq, div_eq_iff hden', mul_div_assoc', div_mul_eq_mul_div, eq_div_iff (by positivity),
    hcast]
  ring

theorem floorLog2_mul_zpow (hden : 0 < den) (hm : 0 < m)
    (h : num * 2 ^ (-e).toNat = den * 2 ^ e.toNat * m) : floorLog2 num den = m.log2 + e := by
  have hlow := two_zpow_log2_le hm.ne'
  have hhigh := lt_two_zpow_log2 m
  apply floorLog2_eq hden
  · rw [div_eq_mul_zpow hden h, zpow_add₀ two_ne_zero]
    gcongr
  · rw [div_eq_mul_zpow hden h, add_right_comm, zpow_add₀ two_ne_zero]
    gcongr

/-- The exponent with which a quotient of the value of a magnitude is rounded. -/
theorem max_floorLog2 (hden : 0 < den) (hk : magnitude k = (m, e)) (hm : 0 < m)
    (h : num * 2 ^ (-e).toNat = den * 2 ^ e.toNat * m) :
    max (floorLog2 num den - 52) (-1074) = e := by
  rw [floorLog2_mul_zpow hden hm h]
  have himplicit : implicitBit = 2 ^ 52 := rfl
  rw [magnitude] at hk
  split at hk
  · rename_i hsmall
    obtain ⟨rfl, rfl⟩ := Prod.mk.inj hk
    have hlog : k.log2 < 52 := (Nat.log2_lt hm.ne').2 (himplicit ▸ hsmall)
    omega
  · rename_i hlarge
    obtain ⟨rfl, rfl⟩ := Prod.mk.inj hk
    have hrest : k % implicitBit < implicitBit := Nat.mod_lt _ (by decide)
    have hlog : (implicitBit + k % implicitBit).log2 = 52 := by
      rw [Nat.log2_eq_iff hm.ne']
      omega
    have hquot : 0 < k / implicitBit := Nat.div_pos (not_lt.1 hlarge) (by decide)
    rw [hlog, Int.ofNat_eq_natCast]
    omega

theorem magnitude_index (hk : magnitude k = (m, e)) : (e + 1074).toNat * implicitBit + m = k := by
  rw [magnitude] at hk
  split at hk
  · obtain ⟨rfl, rfl⟩ := Prod.mk.inj hk
    simp
  · rename_i hlarge
    obtain ⟨rfl, rfl⟩ := Prod.mk.inj hk
    have hquot : 0 < k / implicitBit := Nat.div_pos (not_lt.1 hlarge) (by decide)
    have hexp : (Int.ofNat (k / implicitBit) - 1075 + 1074).toNat = k / implicitBit - 1 := by
      rw [Int.ofNat_eq_natCast]
      omega
    have hsplit := Nat.div_add_mod k implicitBit
    rw [hexp, Nat.sub_mul, Nat.one_mul]
    have hone : implicitBit ≤ k / implicitBit * implicitBit := Nat.le_mul_of_pos_left _ hquot
    rw [Nat.mul_comm] at hsplit
    omega

/-- The magnitude nearest to the value of a magnitude is that magnitude. -/
theorem nearestIndex_eq (hden : 0 < den) (hfinite : k < infinityIndex) (hk : magnitude k = (m, e))
    (hm : 0 < m) (h : num * 2 ^ (-e).toNat = den * 2 ^ e.toNat * m) : nearestIndex num den = k := by
  have hround : roundDiv (num * 2 ^ (-e).toNat) (den * 2 ^ e.toNat) = m := by
    rw [h]
    exact roundDiv_mul_left (by positivity) m
  simp only [nearestIndex, Nat.pow_eq, max_floorLog2 hden hk hm h, hround, magnitude_index hk]
  exact min_eq_left hfinite.le

theorem magnitude_bounds (hfinite : k < infinityIndex) (hk : magnitude k = (m, e)) :
    m < 2 ^ 53 ∧ -1074 ≤ e ∧ e ≤ 971 := by
  have himplicit : implicitBit = 2 ^ 52 := rfl
  have hinfinity : infinityIndex = 2047 * 2 ^ 52 := rfl
  rw [magnitude, himplicit] at hk
  split at hk
  · obtain ⟨rfl, rfl⟩ := Prod.mk.inj hk
    omega
  · obtain ⟨rfl, rfl⟩ := Prod.mk.inj hk
    rw [Int.ofNat_eq_natCast]
    omega

theorem eq_zero_of_magnitude (hk : magnitude k = (0, e)) : k = 0 := by
  rw [magnitude] at hk
  split at hk
  · exact (Prod.mk.inj hk).1
  · have hpos : 0 < implicitBit := by decide
    have hzero := (Prod.mk.inj hk).1
    omega

theorem ofMagnitude_magnitudeIndex (x : Float) :
    ofMagnitude (isNegative x) (magnitudeIndex x) = x := by
  have hsign : signBit = 2 ^ 63 := rfl
  have hbits : x.toBits.toNat < 2 ^ 64 := x.toBits.toNat_lt
  have hindex : (if isNegative x then signBit + magnitudeIndex x else magnitudeIndex x) =
      x.toBits.toNat := by
    rw [isNegative, magnitudeIndex, hsign]
    split
    · rename_i hneg
      have hneg' := of_decide_eq_true hneg
      omega
    · rename_i hpos
      have hpos' : ¬ 2 ^ 63 ≤ x.toBits.toNat := fun h => hpos (decide_eq_true h)
      omega
  rw [ofMagnitude, hindex, UInt64.ofNat_toNat, Float.ofBits_toBits]

theorem ofRatio_eq {x : Float} (hden : 0 < den) (hfinite : magnitudeIndex x < infinityIndex)
    (hk : magnitude (magnitudeIndex x) = (m, e)) (hm : 0 < m)
    (h : num * 2 ^ (-e).toNat = den * 2 ^ e.toNat * m) : ofRatio (isNegative x) num den = x := by
  have hnum : num ≠ 0 := by
    rintro rfl
    have hpos : 0 < den * 2 ^ e.toNat * m := by positivity
    omega
  rw [ofRatio, if_neg hnum, nearestIndex_eq hden hfinite hk hm h, ofMagnitude_magnitudeIndex]

theorem two_pow_le_ten_pow {r n : Nat} (h : r ≤ 3 * n) : 2 ^ r ≤ 10 ^ n := by
  calc 2 ^ r ≤ 2 ^ (3 * n) := Nat.pow_le_pow_right (by decide) h
    _ = 8 ^ n := Nat.pow_mul 2 3 n
    _ ≤ 10 ^ n := Nat.pow_le_pow_left (by decide) n

theorem ten_pow_le_five_pow {r n : Nat} (h : r ≤ 2 * n) : 10 ^ r ≤ 5 ^ (n + r) := by
  calc 10 ^ r = 2 ^ r * 5 ^ r := Nat.mul_pow 2 5 r
    _ ≤ 2 ^ (2 * n) * 5 ^ r := Nat.mul_le_mul_right _ (Nat.pow_le_pow_right (by decide) h)
    _ = 4 ^ n * 5 ^ r := by rw [Nat.pow_mul]
    _ ≤ 5 ^ n * 5 ^ r := Nat.mul_le_mul_right _ (Nat.pow_le_pow_left (by decide) n)
    _ = 5 ^ (n + r) := (Nat.pow_add 5 n r).symm

/-- The digits of an exact decimal with places after the point are about as many as the places. -/
theorem length_digitsOf_mul_five_pow {n : Nat} (hm : 0 < m) (hlt : m < 2 ^ 53) (hn : n ≤ 1074) :
    n ≤ (digitsOf (m * 5 ^ n)).length + 400 ∧ (digitsOf (m * 5 ^ n)).length ≤ n + 400 := by
  constructor
  · by_contra hshort
    have hlength := List.length_pos_iff.2 (digitsOf_ne_nil (m * 5 ^ n))
    obtain ⟨r, rfl⟩ : ∃ r, n = 401 + r := ⟨n - 401, by omega⟩
    have hbound := (length_digitsOf_le_iff (n := m * 5 ^ (401 + r)) (k := r) (by omega)).1
      (by omega)
    have hpow : 10 ^ r ≤ 5 ^ (401 + r) := ten_pow_le_five_pow (by omega)
    exact absurd (hbound.trans_le hpow) (not_lt.2 (Nat.le_mul_of_pos_left _ hm))
  · rw [length_digitsOf_le_iff (by omega)]
    have hm' : m < 10 ^ 400 := hlt.trans_le (two_pow_le_ten_pow (by decide))
    calc m * 5 ^ n < 10 ^ 400 * 5 ^ n := by gcongr
      _ ≤ 10 ^ 400 * 10 ^ n := Nat.mul_le_mul_left _ (Nat.pow_le_pow_left (by decide) n)
      _ = 10 ^ (n + 400) := by rw [← Nat.pow_add, Nat.add_comm]

/-- A decimal that is not settled without the power of ten. -/
theorem Decimal.toFloat_of_order {d : Decimal} (hdigits : 0 < d.digits)
    (hlow : -400 ≤ d.exponent + (digitsOf d.digits).length)
    (hhigh : d.exponent + (digitsOf d.digits).length ≤ 400) :
    d.toFloat =
      ofRatio d.negative (d.digits * 10 ^ d.exponent.toNat) (10 ^ (-d.exponent).toNat) := by
  have hnotsmall : ¬ (d.digits = 0 ∨ d.exponent + (digitsOf d.digits).length < -400) := by omega
  have hnotlarge : ¬ 400 < d.exponent + (digitsOf d.digits).length := by omega
  simp only [Decimal.toFloat, Int.ofNat_eq_natCast, if_neg hnotsmall, if_neg hnotlarge, Nat.pow_eq]

theorem toFloat_toDecimal_of_neg {x : Float} (hfinite : magnitudeIndex x < infinityIndex)
    (hk : magnitude (magnitudeIndex x) = (m, e)) (hm : 0 < m) (he : e < 0) :
    (BinaryNumber.mk (isNegative x) m e).toDecimal.toFloat = x := by
  obtain ⟨hlt, hlow, -⟩ := magnitude_bounds hfinite hk
  obtain ⟨hshort, hlong⟩ := length_digitsOf_mul_five_pow hm hlt (n := (-e).toNat) (by omega)
  have hratio : ofRatio (isNegative x) (m * 5 ^ (-e).toNat) (10 ^ (-e).toNat) = x := by
    apply ofRatio_eq (by positivity) hfinite hk hm
    rw [Int.toNat_of_nonpos he.le, Nat.mul_assoc, ← Nat.mul_pow]
    ring
  have hne : ¬ (m = 0 ∨ 0 ≤ e) := by omega
  simp only [BinaryNumber.toDecimal, if_neg hne, Nat.pow_eq]
  rw [Decimal.toFloat_of_order (by positivity) (by dsimp only; omega) (by dsimp only; omega),
    Int.toNat_of_nonpos he.le, Nat.pow_zero, Nat.mul_one]
  exact hratio

theorem toFloat_toDecimal_of_nonneg {x : Float} (hfinite : magnitudeIndex x < infinityIndex)
    (hk : magnitude (magnitudeIndex x) = (m, e)) (hm : 0 < m) (he : 0 ≤ e) :
    (BinaryNumber.mk (isNegative x) m e).toDecimal.toFloat = x := by
  obtain ⟨hlt, -, hhigh⟩ := magnitude_bounds hfinite hk
  have hlength : (digitsOf (m * 2 ^ e.toNat)).length ≤ 400 := by
    rw [length_digitsOf_le_iff (by decide)]
    calc m * 2 ^ e.toNat < 2 ^ 53 * 2 ^ e.toNat := by gcongr
      _ = 2 ^ (53 + e.toNat) := (Nat.pow_add 2 53 _).symm
      _ ≤ 10 ^ 400 := two_pow_le_ten_pow (by omega)
  have hratio : ofRatio (isNegative x) (m * 2 ^ e.toNat) 1 = x := by
    apply ofRatio_eq (by positivity) hfinite hk hm
    rw [Int.toNat_of_nonpos (by omega : -e ≤ 0)]
    ring
  have hplain : m = 0 ∨ 0 ≤ e := .inr he
  simp only [BinaryNumber.toDecimal, if_pos hplain, Nat.pow_eq]
  rw [Decimal.toFloat_of_order (by positivity) (by dsimp only; omega) (by dsimp only; omega)]
  simpa using hratio

/-- A finite double is read back from its exact decimal. -/
theorem toFloat_toDecimal {x : Float} {d : BinaryNumber} (h : binary? x = some d) :
    d.toDecimal.toFloat = x := by
  rw [binary?] at h
  split at h
  · rename_i hfinite
    obtain rfl := Option.some.inj h
    rcases hk : magnitude (magnitudeIndex x) with ⟨m, e⟩
    rcases Nat.eq_zero_or_pos m with rfl | hm
    · have hzero : ofMagnitude (isNegative x) 0 = x := by
        rw [← eq_zero_of_magnitude hk, ofMagnitude_magnitudeIndex]
      simpa [BinaryNumber.toDecimal, Decimal.toFloat] using hzero
    · rcases lt_or_ge e 0 with he | he
      · exact toFloat_toDecimal_of_neg hfinite hk hm he
      · exact toFloat_toDecimal_of_nonneg hfinite hk hm he
  · cases h

end AddressLedger.Number
