import AddressLedger.Number.Binary64
import Mathlib

/-!
# The sign of an amount

Taking the magnitude of a double and negating it change no more than its sign. So the negated
magnitude of a number is below zero, but for zero: negative zero is not less than zero, and counts
as not negative.
-/
namespace AddressLedger.Number
open Float.Model (Format UnpackedFloat)
open Float.Model.UnpackedFloat

variable {x : Float}

theorem packComponents_eq (b : BitVec Format.binary64.numBits) : b =
    packComponents Format.binary64 (Sign.ofBitVec (unpackSign b)) (unpackExponent b)
      (unpackMantissa b) :=
  (packComponents_unpackSign_unpackExponent_unpackMantissa b).symm

/-- Doubles that differ in their sign bits unpack to numbers that differ in their signs. -/
theorem neg_and_abs_unpack (s : Sign) (e : BitVec 11) (m : BitVec 52) :
    (unpack .binary64 (packComponents .binary64 s e m)).neg =
        unpack .binary64 (packComponents .binary64 (-s) e m) ∧
      (unpack .binary64 (packComponents .binary64 s e m)).abs =
        unpack .binary64 (packComponents .binary64 .positive e m) := by
  simp only [unpack, unpackMantissa_packComponents, unpackExponent_packComponents,
    unpackSign_packComponents, Sign.ofBitVec_toBitVec]
  split
  · split <;> exact ⟨rfl, rfl⟩
  · split
    · split <;> exact ⟨rfl, rfl⟩
    · exact ⟨rfl, rfl⟩

/-- What was unpacked is the same after it is packed once more. -/
theorem unpack_pack_unpack (b : BitVec Format.binary64.numBits) :
    unpack .binary64 (pack .binary64 (unpack .binary64 b)) = unpack .binary64 b := by
  rw [pack_unpack b]
  split
  · rename_i hnan
    have hbits : unpackExponent b = -1#_ ∧ unpackMantissa b ≠ 0#_ := by
      simpa [isNaNBits] using hnan
    rw [unpack_packedNaN, unpack, if_pos hbits.1, if_neg hbits.2]
  · rfl

theorem unpack_neg (x : Float) : (-x).toModel.unpack = x.toModel.unpack.neg := by
  change unpack .binary64 (pack .binary64 (unpack .binary64 x.toModel.toBits.toBitVec).neg) =
    (unpack .binary64 x.toModel.toBits.toBitVec).neg
  rw [packComponents_eq x.toModel.toBits.toBitVec, (neg_and_abs_unpack _ _ _).1,
    unpack_pack_unpack]

theorem unpack_abs (x : Float) : x.abs.toModel.unpack = x.toModel.unpack.abs := by
  change unpack .binary64 (pack .binary64 (unpack .binary64 x.toModel.toBits.toBitVec).abs) =
    (unpack .binary64 x.toModel.toBits.toBitVec).abs
  rw [packComponents_eq x.toModel.toBits.toBitVec, (neg_and_abs_unpack _ _ _).2,
    unpack_pack_unpack]

theorem unpack_zero : (0 : Float).toModel.unpack = .zero .positive := rfl

theorem unpack_ne_notANumber (h : isFinite x = true) : x.toModel.unpack ≠ .notANumber := by
  intro hnan
  have hx : x = .nan := by
    have hisNaN : x.isNaN = true := isNaN_iff.2 hnan
    simpa using hisNaN
  have hnan : isFinite .nan = false := by decide +kernel
  rw [hx, hnan] at h
  cases h

theorem abs_neg_abs (x : Float) : (-x.abs).abs = x.abs := by
  change Float.ofModel (Float.Model.pack (-x.abs).toModel.unpack.abs) =
    Float.ofModel (Float.Model.pack x.toModel.unpack.abs)
  rw [unpack_neg, unpack_abs]
  cases x.toModel.unpack <;> rfl

theorem abs_abs (x : Float) : x.abs.abs = x.abs := by
  change Float.ofModel (Float.Model.pack x.abs.toModel.unpack.abs) =
    Float.ofModel (Float.Model.pack x.toModel.unpack.abs)
  rw [unpack_abs]
  cases x.toModel.unpack <;> rfl

theorem lt_zero_iff : x < 0 ↔ x.toModel.unpack.lt (.zero .positive) = true := by
  change decide (x.toModel.unpack.lt (0 : Float).toModel.unpack = true) = true ↔ _
  rw [decide_eq_true_iff, unpack_zero]

theorem zero_le_iff : 0 ≤ x ↔ UnpackedFloat.le (.zero .positive) x.toModel.unpack = true := by
  change decide (UnpackedFloat.le (0 : Float).toModel.unpack x.toModel.unpack = true) = true ↔ _
  rw [decide_eq_true_iff, unpack_zero]

theorem beq_zero_iff : (x == 0) = true ↔ ∃ sign, x.toModel.unpack = .zero sign := by
  change x.toModel.unpack.beq (0 : Float).toModel.unpack = true ↔ _
  rw [unpack_zero]
  cases hx : x.toModel.unpack with
  | zero sign => exact ⟨fun _ => ⟨sign, rfl⟩, fun _ => rfl⟩
  | finite sign m e hm => cases sign <;> simp [UnpackedFloat.beq, UnpackedFloat.compare]
  | infinity sign => cases sign <;> simp [UnpackedFloat.beq, UnpackedFloat.compare]
  | notANumber => simp [UnpackedFloat.beq, UnpackedFloat.compare]

theorem not_abs_lt_zero (x : Float) : ¬ x.abs < 0 := by
  rw [lt_zero_iff, unpack_abs]
  cases x.toModel.unpack <;> simp [UnpackedFloat.abs, UnpackedFloat.lt, UnpackedFloat.compare]

theorem zero_le_abs (h : isFinite x = true) : 0 ≤ x.abs := by
  rw [zero_le_iff, unpack_abs]
  cases hx : x.toModel.unpack with
  | notANumber => exact absurd hx (unpack_ne_notANumber h)
  | _ => rfl

theorem neg_abs_lt_zero_iff (h : isFinite x = true) : -x.abs < 0 ↔ (x == 0) = false := by
  rw [lt_zero_iff, unpack_neg, unpack_abs, ← Bool.not_eq_true, beq_zero_iff]
  cases hx : x.toModel.unpack with
  | notANumber => exact absurd hx (unpack_ne_notANumber h)
  | zero sign => exact iff_of_false Bool.false_ne_true (by simp)
  | _ => exact iff_of_true rfl (by simp)

theorem zero_le_neg_abs_iff (h : isFinite x = true) : 0 ≤ -x.abs ↔ (x == 0) = true := by
  rw [zero_le_iff, unpack_neg, unpack_abs, beq_zero_iff]
  cases hx : x.toModel.unpack with
  | notANumber => exact absurd hx (unpack_ne_notANumber h)
  | zero sign => exact iff_of_true rfl ⟨sign, rfl⟩
  | _ => exact iff_of_false Bool.false_ne_true (by simp)

end AddressLedger.Number
