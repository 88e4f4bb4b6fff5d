import StackCalc.Proofs.Cell.Floats

namespace StackCalc.Cell

open Float.Model Float.Model.UnpackedFloat

variable {x y : Cell} {m : Nat} {e k : ℤ}

section Packing

def Fits : UnpackedFloat → Prop
  | .finite _ m e _ => m < 2 ^ 53 ∧ -1074 ≤ e
  | _ => False

theorem isZero_iff_fields : x.isZero = true ↔ x.biasedExponent = 0 ∧ x.fraction = 0 := by
  rw [isZero, decide_eq_true_eq, biasedExponent, fraction]
  simp only [leadingBit]
  omega

theorem isZero_ofUnpacked_zero (s : Sign) : (ofUnpacked (.zero s)).isZero = true := by
  cases s <;> decide

theorem Fits.isZero_ofUnpacked {f : UnpackedFloat} (h : Fits f) : (ofUnpacked f).isZero = false := by
  cases f with
  | infinity | notANumber | zero => exact h.elim
  | finite s m e hpos =>
    obtain ⟨hm, he⟩ := h
    have hbias : Format.binary64.exponentBias = 1023 := rfl
    have hbits : Format.binary64.mantissaBits = 53 := rfl
    rw [Bool.eq_false_iff, ne_eq, isZero_iff_fields, ← toNat_unpackExponent, ← toNat_unpackMantissa, ofUnpacked]
    rintro ⟨hexponent, hmantissa⟩
    simp only [UnpackedFloat.pack, hbias, hbits] at hexponent hmantissa
    split at hexponent
    case isTrue =>
      rw [packedInfinity, unpackExponent_packComponents] at hexponent
      cases hexponent
    case isFalse hinf =>
      rw [if_neg hinf] at hmantissa
      split at hexponent
      case isTrue =>
        rw [unpackExponent_packComponents, BitVec.toNat_ofNat] at hexponent
        omega
      case isFalse hlog =>
        have hlt : m.log2 < 53 := (Nat.log2_lt hpos.ne').mpr hm
        have hm' : m < 2 ^ 52 := (Nat.log2_lt hpos.ne').mp (by omega)
        rw [if_neg hlog, unpackMantissa_packComponents, BitVec.toNat_ofNat, Nat.mod_eq_of_lt hm'] at hmantissa
        exact hpos.ne' hmantissa

theorem fits_of_pos (x : Cell) (s : Sign) (h : 0 < x.significand) : Fits (.finite s x.significand x.exponent h) :=
  ⟨x.canonical.lt, x.canonical.le⟩

end Packing

section Rounding

theorem mantissa_shiftRight (m : ExtendedMantissa) (n : Nat) : (m >>> n).mantissa = m.mantissa >>> n := by
  induction n with
  | zero => rfl
  | succ n ih =>
    have hstep : m >>> (n + 1) = (m >>> n).shiftRightOne := rfl
    rw [hstep, ExtendedMantissa.shiftRightOne, ih, Nat.shiftRight_succ]

theorem mantissa_ofMantissaAndAccuracy (m : Nat) (a : Accuracy) :
    (ExtendedMantissa.ofMantissaAndAccuracy m a).mantissa = m := by
  cases a with
  | exact => rfl
  | inexact o => cases o <;> rfl

theorem le_roundToNearestEven (m : Nat) (a : Accuracy) : m ≤ a.roundToNearestEven m := by
  cases a with
  | exact => exact le_rfl
  | inexact o =>
    cases o with
    | lt => exact le_rfl
    | eq => exact Nat.le_add_right _ _
    | gt => exact Nat.le_succ m

theorem targetExponent_eq (e : ℤ) : Format.binary64.targetExponent e = max (e - 53) (-1074) := rfl

theorem shiftToTargetExponent_bounds (hm : m ≠ 0) (he : -1074 ≤ e) (a : Accuracy) :
    let shifted := shiftToTargetExponent .binary64 m e a
    shifted.1.mantissa ≠ 0 ∧ shifted.1.mantissa < 2 ^ 53 ∧ -1074 ≤ shifted.2 := by
  intro shifted
  have hexponent : -1074 ≤ shifted.2 := by
    change -1074 ≤ e + _
    omega
  have hmantissa : shifted.1.mantissa = m >>> (max (m.log2 + 1 + e - 53) (-1074) - e).toNat := by
    change ExtendedMantissa.mantissa (ExtendedMantissa.ofMantissaAndAccuracy m a >>> Int.toNat _) = _
    rw [mantissa_shiftRight, mantissa_ofMantissaAndAccuracy, targetExponent_eq, totalExponent]
  have hlow : 2 ^ m.log2 ≤ m := Nat.log2_self_le hm
  have hhigh : m < 2 ^ (m.log2 + 1) := Nat.lt_log2_self
  generalize hk : (max (m.log2 + 1 + e - 53) (-1074) - e).toNat = k at hmantissa
  have hle : k ≤ m.log2 := by omega
  have hlt : m.log2 + 1 ≤ 53 + k := by omega
  rw [hmantissa, Nat.shiftRight_eq_div_pow]
  refine ⟨?_, ?_, hexponent⟩
  · exact (Nat.div_pos ((Nat.pow_le_pow_right (by decide) hle).trans hlow) (Nat.two_pow_pos k)).ne'
  · rw [Nat.div_lt_iff_lt_mul (Nat.two_pow_pos k), ← Nat.pow_add]
    exact hhigh.trans_le (Nat.pow_le_pow_right (by decide) hlt)

/-- Rounding shifts a second time, since the significand may have carried. -/
theorem fits_roundWithAccuracy (hm : m ≠ 0) (he : -1074 ≤ e) (s : Sign) (a : Accuracy) :
    Fits (roundWithAccuracy .binary64 s m e a) := by
  obtain ⟨hne, -, hle⟩ := shiftToTargetExponent_bounds hm he a
  have hrounded : (shiftToTargetExponent .binary64 m e a).1.roundedMantissa ≠ 0 :=
    ((Nat.pos_of_ne_zero hne).trans_le (le_roundToNearestEven ..)).ne'
  obtain ⟨hne', hlt', hle'⟩ := shiftToTargetExponent_bounds hrounded hle .exact
  rw [roundWithAccuracy]
  dsimp only
  rw [dif_neg hne']
  exact ⟨hlt', hle'⟩

theorem fits_round (hm : m ≠ 0) (he : -1074 ≤ e) (s : Sign) : Fits (UnpackedFloat.round .binary64 s m e) := by
  apply fits_roundWithAccuracy
  · rw [Nat.shiftLeft_eq]
    exact Nat.mul_ne_zero hm (Nat.two_pow_pos _).ne'
  · rw [targetExponent_eq]
    omega

theorem isZero_ofUnpacked_normalize (he : -1074 ≤ e) (s : Sign) :
    (ofUnpacked (UnpackedFloat.normalize .binary64 k e s)).isZero = true ↔ k = 0 := by
  rcases lt_trichotomy k 0 with hk | rfl | hk
  · rw [UnpackedFloat.normalize, compare_lt_iff_lt.mpr hk]
    exact iff_of_false (Bool.eq_false_iff.mp (fits_round (by omega) he _).isZero_ofUnpacked) hk.ne
  · rw [UnpackedFloat.normalize, compare_eq_iff_eq.mpr rfl]
    exact iff_of_true (isZero_ofUnpacked_zero s) rfl
  · rw [UnpackedFloat.normalize, compare_gt_iff_gt.mpr hk]
    exact iff_of_false (Bool.eq_false_iff.mp (fits_round (by omega) he _).isZero_ofUnpacked) hk.ne'

end Rounding

theorem sub_eq (x y : Cell) : x - y = ofUnpacked (UnpackedFloat.sub .binary64 x.unpacked y.unpacked) := by
  rw [← unpack_toFloat, ← unpack_toFloat]
  rfl

theorem isZero_sub_iff (hx : x.isFinite = true) (hy : y.isFinite = true) :
    (x - y).isZero = true ↔ x.toRat = y.toRat := by
  rw [sub_eq]
  rcases Nat.eq_zero_or_pos x.significand with hm | hm <;> rcases Nat.eq_zero_or_pos y.significand with hm' | hm'
  · rw [unpacked_of_eq_zero hx hm, unpacked_of_eq_zero hy hm', toRat_eq_zero_iff.mpr hm, toRat_eq_zero_iff.mpr hm',
      UnpackedFloat.sub]
    refine iff_of_true ?_ rfl
    split <;> exact isZero_ofUnpacked_zero _
  · rw [unpacked_of_eq_zero hx hm, unpacked_of_pos hy hm', toRat_eq_zero_iff.mpr hm, eq_comm (a := (0 : ℚ)),
      toRat_eq_zero_iff]
    exact iff_of_false (Bool.eq_false_iff.mp (y.fits_of_pos _ hm').isZero_ofUnpacked) hm'.ne'
  · rw [unpacked_of_pos hx hm, unpacked_of_eq_zero hy hm', toRat_eq_zero_iff.mpr hm', toRat_eq_zero_iff]
    exact iff_of_false (Bool.eq_false_iff.mp (x.fits_of_pos _ hm).isZero_ofUnpacked) hm.ne'
  · rw [unpacked_of_pos hx hm, unpacked_of_pos hy hm', UnpackedFloat.sub]
    dsimp only [decreaseExponent]
    have hmin : -1074 ≤ min x.exponent y.exponent := le_min x.canonical.le y.canonical.le
    have hpos : (2 : ℚ) ^ min x.exponent y.exponent ≠ 0 := by positivity
    rw [isZero_ofUnpacked_normalize hmin, toRat, toRat, ← apply_shiftLeft _ _ (min_le_left x.exponent y.exponent),
      ← apply_shiftLeft _ _ (min_le_right x.exponent y.exponent), mul_left_inj' hpos, Int.cast_inj, sub_eq_zero]

end StackCalc.Cell
