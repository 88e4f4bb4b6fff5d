import Mathlib
import StackCalc.Cell.Arithmetic
import StackCalc.Proofs.Cell.Values

/-!
# Cells as floats

Arithmetic takes a float apart into a sign, a significand and an exponent. For the float of a cell these are those
of the cell. So equality on the bits is the equality of floats, finite cells are ordered as the numbers that they
stand for, and what lies between two of them is finite.
-/

namespace StackCalc.Cell

open Float.Model Float.Model.UnpackedFloat

variable {x y z : Cell}

def unpacked (x : Cell) : UnpackedFloat :=
  if x.isNaN then .notANumber
  else if x.isInf then .infinity x.sign
  else if h : 0 < x.significand then .finite x.sign x.significand x.exponent h
  else .zero x.sign

def ofUnpacked (f : UnpackedFloat) : Cell := ⟨⟨f.pack .binary64⟩⟩

section Fields

theorem toNat_unpackExponent (x : Cell) :
    (@unpackExponent .binary64 x.bits.toBitVec).toNat = x.biasedExponent := by
  rw [unpackExponent_def, BitVec.extractLsb'_toNat, biasedExponent, magnitudeBits, Nat.shiftRight_eq_div_pow]
  change x.bits.toNat / 2 ^ 52 % 2 ^ 11 = _
  simp only [signBit, leadingBit]
  omega

theorem toNat_unpackMantissa (x : Cell) :
    (@unpackMantissa .binary64 x.bits.toBitVec).toNat = x.fraction := by
  rw [unpackMantissa_def, BitVec.extractLsb'_toNat, fraction, magnitudeBits, Nat.shiftRight_eq_div_pow]
  change x.bits.toNat / 2 ^ 0 % 2 ^ 52 = _
  simp only [signBit, leadingBit]
  omega

theorem ofBitVec_unpackSign (x : Cell) :
    Sign.ofBitVec (@unpackSign .binary64 x.bits.toBitVec) = x.sign := by
  have hlt := x.toNat_bits_lt
  have hbit : (@unpackSign .binary64 x.bits.toBitVec).toNat = x.bits.toNat / 2 ^ 63 % 2 ^ 1 := by
    rw [unpackSign_def, BitVec.extractLsb'_toNat, Nat.shiftRight_eq_div_pow]
    rfl
  have hiff : @unpackSign .binary64 x.bits.toBitVec = 0#1 ↔ ¬x.isNegative = true := by
    rw [← BitVec.toNat_inj, hbit, isNegative, decide_eq_true_eq]
    simp only [signBit] at hlt ⊢
    change _ = 0 ↔ _
    omega
  rw [Sign.ofBitVec, sign, ← ite_not (x.isNegative = true)]
  simp only [hiff]

theorem unpackExponent_eq_iff (k : BitVec 11) :
    @unpackExponent .binary64 x.bits.toBitVec = k ↔ x.biasedExponent = k.toNat := by
  rw [← BitVec.toNat_inj, toNat_unpackExponent]

theorem unpackMantissa_eq_zero_iff :
    @unpackMantissa .binary64 x.bits.toBitVec = 0#52 ↔ x.fraction = 0 := by
  rw [← BitVec.toNat_inj, toNat_unpackMantissa]
  rfl

theorem isNaN_iff_fields : x.isNaN = true ↔ x.biasedExponent = 2047 ∧ x.fraction ≠ 0 := by
  have hlt := x.magnitudeBits_lt
  rw [isNaN, decide_eq_true_eq, biasedExponent, fraction]
  simp only [infinityBits, leadingBit, signBit] at hlt ⊢
  omega

theorem isInf_iff_fields : x.isInf = true ↔ x.biasedExponent = 2047 ∧ x.fraction = 0 := by
  rw [isInf, decide_eq_true_eq, biasedExponent, fraction]
  simp only [infinityBits, leadingBit]
  omega

theorem isFinite_iff_fields : x.isFinite = true ↔ x.biasedExponent ≠ 2047 := by
  have hlt := x.magnitudeBits_lt
  rw [isFinite, decide_eq_true_eq, biasedExponent]
  simp only [infinityBits, leadingBit, signBit] at hlt ⊢
  omega

end Fields

section Forms

theorem unpacked_eq_notANumber_iff : x.unpacked = .notANumber ↔ x.isNaN = true := by
  rw [unpacked]
  split
  case isTrue h => exact iff_of_true rfl h
  case isFalse h => exact iff_of_false (by split <;> [nofun; split <;> nofun]) h

theorem unpacked_of_isInf (h : x.isInf = true) : x.unpacked = .infinity x.sign := by
  have hnan : ¬x.isNaN = true := fun hnan => (isNaN_iff_fields.mp hnan).2 (isInf_iff_fields.mp h).2
  rw [unpacked, if_neg hnan, if_pos h]

theorem unpacked_of_pos (hx : x.isFinite = true) (h : 0 < x.significand) :
    x.unpacked = .finite x.sign x.significand x.exponent h := by
  simp only [unpacked, not_isNaN_of_isFinite hx, not_isInf_of_isFinite hx, Bool.false_eq_true, ↓reduceIte, dif_pos h]

theorem unpacked_of_eq_zero (hx : x.isFinite = true) (h : x.significand = 0) : x.unpacked = .zero x.sign := by
  simp only [unpacked, not_isNaN_of_isFinite hx, not_isInf_of_isFinite hx, Bool.false_eq_true, ↓reduceIte,
    dif_neg h.not_gt]

theorem unpacked_cases (hx : x.isFinite = true) :
    (∃ s, x.unpacked = .zero s) ∨ ∃ s m e h, x.unpacked = .finite s m e h := by
  rcases Nat.eq_zero_or_pos x.significand with hm | hm
  · exact .inl ⟨_, unpacked_of_eq_zero hx hm⟩
  · exact .inr ⟨_, _, _, _, unpacked_of_pos hx hm⟩

theorem unpacked_eq_zero_iff {s : Sign} : x.unpacked = .zero s ↔ x.isZero = true ∧ x.sign = s := by
  constructor
  · intro h
    rw [unpacked] at h
    split at h
    · cases h
    · split at h
      · cases h
      · split at h
        case isTrue => cases h
        case isFalse hpos => exact ⟨isZero_iff.mpr (Nat.eq_zero_of_not_pos hpos), UnpackedFloat.zero.inj h⟩
  · rintro ⟨h, rfl⟩
    exact unpacked_of_eq_zero (isFinite_of_isZero h) (isZero_iff.mp h)

theorem unpack_bits (x : Cell) : UnpackedFloat.unpack .binary64 x.bits.toBitVec = x.unpacked := by
  have hfinite {v : BitVec 11} (h : ¬v = -1#11) (hv : v = @unpackExponent .binary64 x.bits.toBitVec) :
      x.isFinite = true := by
    subst hv
    exact isFinite_iff_fields.mpr fun hx => h ((unpackExponent_eq_iff _).mpr hx)
  have hbias : Format.binary64.exponentBias = 1023 := rfl
  have hexponent := x.toNat_unpackExponent
  have hmantissa := x.toNat_unpackMantissa
  fun_cases UnpackedFloat.unpack .binary64 x.bits.toBitVec with
  | case1 mantissaVec exponentVec signVec s he hm =>
    rw [unpacked_of_isInf (isInf_iff_fields.mpr ⟨(unpackExponent_eq_iff _).mp he, unpackMantissa_eq_zero_iff.mp hm⟩)]
    exact congrArg _ x.ofBitVec_unpackSign
  | case2 mantissaVec exponentVec he hm =>
    have hnan := isNaN_iff_fields.mpr ⟨(unpackExponent_eq_iff _).mp he, mt unpackMantissa_eq_zero_iff.mpr hm⟩
    exact (unpacked_eq_notANumber_iff.mpr hnan).symm
  | case3 mantissaVec exponentVec signVec s he hzero hm =>
    have hbiased : x.biasedExponent = 0 := (unpackExponent_eq_iff _).mp hzero
    have hsignificand : x.significand = 0 := by
      rw [significand, if_pos hbiased, unpackMantissa_eq_zero_iff.mp hm]
    rw [unpacked_of_eq_zero (hfinite he rfl) hsignificand]
    exact congrArg _ x.ofBitVec_unpackSign
  | case4 mantissaVec exponentVec e signVec s he hzero hm =>
    have hbiased : x.biasedExponent = 0 := (unpackExponent_eq_iff _).mp hzero
    have hsignificand : x.significand = mantissaVec.toNat := by
      rw [significand, if_pos hbiased]
      exact hmantissa.symm
    have hpos : 0 < x.significand := by
      rw [hsignificand]
      exact Nat.pos_of_ne_zero fun h => hm (BitVec.toNat_inj.mp h)
    have hexp : x.exponent = e + 1 := by
      simp only [exponent, e, exponentVec, hexponent, hbias, hbiased]
      rfl
    rw [unpacked_of_pos (hfinite he rfl) hpos, UnpackedFloat.finite.injEq]
    exact ⟨x.ofBitVec_unpackSign, hsignificand.symm, hexp.symm⟩
  | case5 mantissaVec exponentVec e signVec s he hzero =>
    have hbiased : x.biasedExponent ≠ 0 := fun h => hzero ((unpackExponent_eq_iff _).mpr h)
    have hsignificand : x.significand = (1#1 ++ mantissaVec).toNat := by
      rw [significand, if_neg hbiased, BitVec.toNat_append, ← Nat.shiftLeft_add_eq_or_of_lt mantissaVec.isLt,
        hmantissa]
      rfl
    have hpos : 0 < x.significand := by
      rw [significand, if_neg hbiased]
      exact Nat.add_pos_left (by decide) _
    have hexp : x.exponent = e := by
      simp only [exponent, e, exponentVec, hexponent, hbias]
      omega
    rw [unpacked_of_pos (hfinite he rfl) hpos, UnpackedFloat.finite.injEq]
    exact ⟨x.ofBitVec_unpackSign, hsignificand.symm, hexp.symm⟩

theorem unpacked_of_isNaNBits (h : @isNaNBits .binary64 x.bits.toBitVec = true) : x.unpacked = .notANumber := by
  rw [isNaNBits, decide_eq_true_eq] at h
  rw [← unpack_bits, UnpackedFloat.unpack]
  simp only [h, ↓reduceIte]

theorem unpack_toFloat (x : Cell) : x.toFloat.toModel.unpack = x.unpacked := by
  have hpack : x.toFloat.toModel.unpack =
      UnpackedFloat.unpack .binary64 ((UnpackedFloat.unpack .binary64 x.bits.toBitVec).pack .binary64) := rfl
  rw [hpack, pack_unpack]
  split
  case isTrue h => rw [unpack_packedNaN, unpacked_of_isNaNBits h]
  case isFalse => exact x.unpack_bits

theorem ofUnpacked_unpacked (h : x.isNaN = false) : ofUnpacked x.unpacked = x := by
  have hnan : ¬@isNaNBits .binary64 x.bits.toBitVec = true := fun hbits =>
    Bool.false_ne_true (h.symm.trans (unpacked_eq_notANumber_iff.mp (unpacked_of_isNaNBits hbits)))
  rw [ofUnpacked, ← unpack_bits, pack_unpack, if_neg hnan]

theorem unpacked_inj (hx : x.isNaN = false) (hy : y.isNaN = false) : x.unpacked = y.unpacked ↔ x = y := by
  constructor
  · intro h
    rw [← ofUnpacked_unpacked hx, h, ofUnpacked_unpacked hy]
  · rintro rfl
    rfl

end Forms

section Order

theorem toFloat_beq (x y : Cell) : (x.toFloat == y.toFloat) = x.unpacked.beq y.unpacked := by
  rw [← unpack_toFloat, ← unpack_toFloat]
  rfl

theorem equals_eq_beq (x y : Cell) : x.equals y = (x.toFloat == y.toFloat) := by
  have hsigns : x.sign = y.sign ∨ x.sign = .positive ∧ y.sign = .negative ∨
      x.sign = .negative ∧ y.sign = .positive := by
    rw [sign, sign]
    cases x.isNegative <;> cases y.isNegative <;> simp
  rw [toFloat_beq, Bool.eq_iff_iff, beq_iff_ne_notANumber_and_eq]
  simp only [equals, Bool.and_eq_true, Bool.or_eq_true, Bool.not_eq_true', decide_eq_true_eq, ne_eq,
    unpacked_eq_notANumber_iff, unpacked_eq_zero_iff, Bool.not_eq_true, and_assoc]
  refine and_congr_right fun hx => and_congr_right fun hy => ?_
  rw [unpacked_inj hx hy]
  constructor
  · rintro (h | ⟨h, h'⟩)
    · exact .inl h
    · rcases hsigns with hsign | hsign | hsign
      · left
        rw [← unpacked_inj hx hy, unpacked_eq_zero_iff.mpr ⟨h, hsign⟩, unpacked_eq_zero_iff.mpr ⟨h', rfl⟩]
      · exact .inr (.inl ⟨h, hsign.1, h', hsign.2⟩)
      · exact .inr (.inr ⟨h, hsign.1, h', hsign.2⟩)
  · rintro (h | ⟨h, -, h', -⟩ | ⟨h, -, h', -⟩)
    · exact .inl h
    · exact .inr ⟨h, h'⟩
    · exact .inr ⟨h, h'⟩

theorem compare_finite {s s' : Sign} {m m' : Nat} {e e' : ℤ} (hm : 0 < m) (hm' : 0 < m') (hc : Canonical m e)
    (hc' : Canonical m' e') : UnpackedFloat.compare (.finite s m e hm) (.finite s' m' e' hm') =
      some (compare ((s.apply m : ℤ) * 2 ^ e : ℚ) ((s'.apply m' : ℤ) * 2 ^ e')) := by
  have hpos : (0 : ℚ) < m * 2 ^ e := by positivity
  have hpos' : (0 : ℚ) < m' * 2 ^ e' := by positivity
  cases s <;> cases s' <;>
    simp only [UnpackedFloat.compare, Sign.apply, Int.cast_neg, Int.cast_natCast, neg_mul, Option.some.injEq]
  case negative.negative => rw [hc.compare_eq hc', compare_neg_neg]
  case negative.positive => exact (compare_lt_iff_lt.mpr (by linarith)).symm
  case positive.negative => exact (compare_gt_iff_gt.mpr (by linarith)).symm
  case positive.positive => exact hc.compare_eq hc'

theorem compare_zero_finite (s : Sign) {s' : Sign} {m : Nat} {e : ℤ} (hm : 0 < m) :
    UnpackedFloat.compare (.zero s) (.finite s' m e hm) = some (compare 0 ((s'.apply m : ℤ) * 2 ^ e : ℚ)) ∧
      UnpackedFloat.compare (.finite s' m e hm) (.zero s) = some (compare ((s'.apply m : ℤ) * 2 ^ e : ℚ) 0) := by
  have hpos : (0 : ℚ) < m * 2 ^ e := by positivity
  cases s' <;>
    simp only [UnpackedFloat.compare, Sign.apply, Int.cast_neg, Int.cast_natCast, neg_mul, Option.some.injEq]
  case negative =>
    exact ⟨(compare_gt_iff_gt.mpr (neg_neg_of_pos hpos)).symm, (compare_lt_iff_lt.mpr (neg_neg_of_pos hpos)).symm⟩
  case positive => exact ⟨(compare_lt_iff_lt.mpr hpos).symm, (compare_gt_iff_gt.mpr hpos).symm⟩

theorem compare_unpacked (hx : x.isFinite = true) (hy : y.isFinite = true) :
    x.unpacked.compare y.unpacked = some (compare x.toRat y.toRat) := by
  rcases Nat.eq_zero_or_pos x.significand with hm | hm <;> rcases Nat.eq_zero_or_pos y.significand with hm' | hm'
  · rw [unpacked_of_eq_zero hx hm, unpacked_of_eq_zero hy hm', toRat_eq_zero_iff.mpr hm, toRat_eq_zero_iff.mpr hm']
    rfl
  · rw [unpacked_of_eq_zero hx hm, unpacked_of_pos hy hm', toRat_eq_zero_iff.mpr hm, (compare_zero_finite _ hm').1,
      toRat]
  · rw [unpacked_of_pos hx hm, unpacked_of_eq_zero hy hm', toRat_eq_zero_iff.mpr hm', (compare_zero_finite _ hm).2,
      toRat]
  · rw [unpacked_of_pos hx hm, unpacked_of_pos hy hm', compare_finite hm hm' x.canonical y.canonical, toRat, toRat]

theorem equals_iff_toRat_eq (hx : x.isFinite = true) (hy : y.isFinite = true) :
    x.equals y = true ↔ x.toRat = y.toRat := by
  rw [equals_eq_beq, toFloat_beq, UnpackedFloat.beq, compare_unpacked hx hy, beq_iff_eq, Option.some.injEq,
    compare_eq_iff_eq]

theorem le_iff_compare : x ≤ y ↔ (x.unpacked.compare y.unpacked).any Ordering.isLE = true := by
  rw [← unpack_toFloat, ← unpack_toFloat]
  exact decide_eq_true_iff

theorem le_iff_toRat_le (hx : x.isFinite = true) (hy : y.isFinite = true) : x ≤ y ↔ x.toRat ≤ y.toRat := by
  rw [le_iff_compare, compare_unpacked hx hy, Option.any_some]
  exact Std.LawfulBCmp.isLE_iff_le

theorem isFinite_of_le_of_le (hy : y.isFinite = true) (hz : z.isFinite = true) (h : y ≤ x) (h' : x ≤ z) :
    x.isFinite = true := by
  rw [le_iff_compare] at h h'
  refine isFinite_of_not (Bool.eq_false_iff.mpr fun hnan => ?_) (Bool.eq_false_iff.mpr fun hinf => ?_)
  · rw [unpacked_eq_notANumber_iff.mpr hnan] at h'
    cases h'
  · rw [unpacked_of_isInf hinf] at h h'
    generalize x.sign = s at h h'
    cases s with
    | negative => rcases unpacked_cases hy with ⟨s, hs⟩ | ⟨s, m, e, hm, hs⟩ <;> rw [hs] at h <;> cases h
    | positive => rcases unpacked_cases hz with ⟨s, hs⟩ | ⟨s, m, e, hm, hs⟩ <;> rw [hs] at h' <;> cases h'

end Order

end StackCalc.Cell
