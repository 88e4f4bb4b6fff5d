import StackCalc.Proofs.Cell.Differences

namespace StackCalc.Cell

open Float.Model Float.Model.UnpackedFloat

variable {x : Cell}

section Truncation

theorem wholePart_of_nonneg (h : 0 ≤ x.exponent) : x.wholePart = x.significand <<< (x.exponent - 0).toNat := by
  have hneg : (-x.exponent).toNat = 0 := by omega
  rw [wholePart, hneg, Int.sub_zero, Nat.shiftRight_zero]

theorem wholePart_lt (h : ¬0 ≤ x.exponent) : x.wholePart < 2 ^ 53 := by
  have htoNat : x.exponent.toNat = 0 := by omega
  rw [wholePart, htoNat, Nat.shiftLeft_zero]
  exact (Nat.shiftRight_le ..).trans_lt x.canonical.lt

theorem toRat_withSign (x y : Cell) : (withSign x.isNegative y).toRat = (x.sign.apply 1 : ℤ) * y.toRat := by
  rw [withSign, sign]
  cases x.isNegative with
  | false => simp [Sign.apply]
  | true => simp [Sign.apply, toRat_neg]

theorem isFinite_trunc (hx : x.isFinite = true) : x.trunc.isFinite = true := by
  rw [trunc]
  split
  case isTrue => exact hx
  case isFalse h => rw [isFinite_withSign, isFinite_ofNat (wholePart_lt h)]

theorem toRat_trunc (x : Cell) : x.trunc.toRat = (x.sign.apply x.wholePart : ℤ) := by
  rw [trunc]
  split
  case isTrue h => rw [toRat, ← apply_shiftLeft _ _ h, wholePart_of_nonneg h, zpow_zero, mul_one]
  case isFalse h =>
    rw [toRat_withSign, toRat_ofNat (wholePart_lt h)]
    cases x.sign <;> simp [Sign.apply]

theorem fract_equals_zero_iff (hx : x.isFinite = true) :
    x.fract.equals zero = true ↔ x.toRat = (x.sign.apply x.wholePart : ℤ) := by
  rw [equals_zero_iff, fract, isZero_sub_iff hx (isFinite_trunc hx), toRat_trunc]

end Truncation

section Bytes

theorem toNat_ofNatClamp (n : Nat) : (UInt8.ofNatClamp n).toNat = min n 255 := by
  rw [UInt8.ofNatClamp]
  split
  case isTrue h => exact (Nat.min_eq_left (Nat.le_of_lt_succ h)).symm
  case isFalse h => exact (Nat.min_eq_right (Nat.le_of_succ_le (Nat.not_lt.mp h))).symm

theorem toNat_toUInt8 (hx : x.isFinite = true) : x.toUInt8.toNat = min (x.sign.apply x.wholePart).toNat 255 := by
  have hbyte : x.toUInt8 = x.unpacked.toUInt8 := by
    rw [← unpack_toFloat]
    rfl
  rw [hbyte, UnpackedFloat.toUInt8, toNat_ofNatClamp]
  rcases Nat.eq_zero_or_pos x.significand with hm | hm
  · have hwhole : x.wholePart = 0 := by rw [wholePart, hm, Nat.zero_shiftLeft, Nat.zero_shiftRight]
    rw [unpacked_of_eq_zero hx hm, hwhole, Nat.cast_zero, (apply_eq_zero_iff _ _).mpr rfl]
    rfl
  · have hshift : (0 - (x.exponent - (x.exponent - 0).toNat)).toNat = (-x.exponent).toNat := by omega
    rw [unpacked_of_pos hx hm, toInt, roundToInt]
    dsimp only [decreaseExponent, shiftToExponent]
    rw [mantissa_shiftRight, mantissa_ofMantissaAndAccuracy, wholePart, hshift, Int.sub_zero]

end Bytes

end StackCalc.Cell
