import Mathlib.Tactic.FieldSimp
import StackCalc.Proofs.Cell.Signs

/-!
# The number that a cell stands for

A finite cell stands for its significand times a power of two, with its sign. Numbers are ordered as their
exponents are, and by their significands where these are the same, because significands are canonical. The whole
numbers below `2 ^ 53` are numbers of cells.
-/

namespace StackCalc.Cell

open Float.Model.UnpackedFloat (Sign)

def sign (x : Cell) : Sign := if x.isNegative then .negative else .positive

/-- Only the value of a finite cell means anything. -/
def toRat (x : Cell) : ℚ := (x.sign.apply x.significand : ℤ) * 2 ^ x.exponent

variable {x y : Cell} {m m' n : Nat} {e e' k : Int}

section Signed

theorem apply_neg (s : Sign) (k : ℤ) : (-s).apply k = -s.apply k := by
  cases s with
  | positive => rfl
  | negative => exact (neg_neg k).symm

theorem apply_eq_zero_iff (s : Sign) (k : ℤ) : s.apply k = 0 ↔ k = 0 := by
  cases s with
  | positive => rfl
  | negative => exact neg_eq_zero

theorem apply_shiftLeft (s : Sign) (m : Nat) (h : k ≤ e) :
    ((s.apply (m <<< (e - k).toNat : Nat) : ℤ) : ℚ) * 2 ^ k = (s.apply m : ℤ) * 2 ^ e := by
  have he : (2 : ℚ) ^ e = 2 ^ (e - k).toNat * 2 ^ k := by
    rw [← zpow_natCast, Int.toNat_of_nonneg (by omega), ← zpow_add₀ (by norm_num), Int.sub_add_cancel]
  rw [he, Nat.shiftLeft_eq]
  cases s with
  | positive =>
    simp only [Sign.apply]
    push_cast
    ring
  | negative =>
    simp only [Sign.apply]
    push_cast
    ring

theorem toRat_eq_zero_iff : x.toRat = 0 ↔ x.significand = 0 := by
  have hpos : (2 : ℚ) ^ x.exponent ≠ 0 := by positivity
  rw [toRat, mul_eq_zero, or_iff_left hpos, Int.cast_eq_zero, apply_eq_zero_iff, Nat.cast_eq_zero]

theorem toRat_neg (x : Cell) : (-x).toRat = -x.toRat := by
  have hmagnitude := x.magnitudeBits_neg
  have hsignificand : (-x).significand = x.significand := by
    rw [significand, significand, biasedExponent, biasedExponent, fraction, fraction, hmagnitude]
  have hexponent : (-x).exponent = x.exponent := by
    rw [exponent, exponent, biasedExponent, biasedExponent, hmagnitude]
  have hsign : (-x).sign = -x.sign := by
    rw [sign, sign, isNegative_neg]
    cases x.isNegative <;> rfl
  rw [toRat, toRat, hsign, apply_neg, hsignificand, hexponent, Int.cast_neg, neg_mul]

theorem isZero_iff : x.isZero = true ↔ x.significand = 0 := by
  rw [isZero, decide_eq_true_eq, significand]
  split
  case isTrue h =>
    rw [← Nat.div_add_mod' x.magnitudeBits leadingBit]
    change x.biasedExponent * leadingBit + x.fraction = 0 ↔ _
    rw [h, Nat.zero_mul, Nat.zero_add]
  case isFalse h =>
    refine iff_of_false (fun hzero => h ?_) (by simp only [leadingBit]; omega)
    rw [biasedExponent, hzero, Nat.zero_div]

end Signed

section Order

theorem compare_neg_neg (a b : ℚ) : compare (-a) (-b) = (compare a b).swap := by
  rw [← Std.OrientedCmp.eq_swap]
  rcases lt_trichotomy a b with h | rfl | h
  · rw [compare_gt_iff_gt.mpr (neg_lt_neg h), compare_gt_iff_gt.mpr h]
  · rw [compare_eq_iff_eq.mpr rfl, compare_eq_iff_eq.mpr rfl]
  · rw [compare_lt_iff_lt.mpr (neg_lt_neg h), compare_lt_iff_lt.mpr h]

theorem compare_natCast_mul {c : ℚ} (hc : 0 < c) : compare (m * c) (m' * c) = compare m m' := by
  rcases lt_trichotomy m m' with h | rfl | h
  · rw [compare_lt_iff_lt.mpr h, compare_lt_iff_lt.mpr (mul_lt_mul_of_pos_right (by exact_mod_cast h) hc)]
  · rw [compare_eq_iff_eq.mpr rfl, compare_eq_iff_eq.mpr rfl]
  · rw [compare_gt_iff_gt.mpr h, compare_gt_iff_gt.mpr (mul_lt_mul_of_pos_right (by exact_mod_cast h) hc)]

theorem Canonical.mul_zpow_lt (h : Canonical m e) (h' : Canonical m' e') (he : e < e') :
    (m : ℚ) * 2 ^ e < m' * 2 ^ e' := by
  have hle := h.le
  have hleading : 2 ^ 52 ≤ m' := h'.leading.resolve_right (by omega)
  have hlow : (2 : ℚ) ^ 52 ≤ m' := by exact_mod_cast hleading
  have hhigh : (m : ℚ) < 2 ^ 53 := by exact_mod_cast h.lt
  have hpos : (0 : ℚ) < 2 ^ e := by positivity
  have hstep : (2 : ℚ) ^ (e + 1) ≤ 2 ^ e' := zpow_le_zpow_right₀ (by norm_num) he
  calc (m : ℚ) * 2 ^ e < 2 ^ 53 * 2 ^ e := mul_lt_mul_of_pos_right hhigh hpos
    _ = 2 ^ 52 * 2 ^ (e + 1) := by rw [zpow_add_one₀ (by norm_num)]; ring
    _ ≤ m' * 2 ^ e' := mul_le_mul hlow hstep (by positivity) (by positivity)

theorem Canonical.compare_eq (h : Canonical m e) (h' : Canonical m' e') :
    (compare e e').then (compare m m') = compare ((m : ℚ) * 2 ^ e) (m' * 2 ^ e') := by
  rcases lt_trichotomy e e' with he | rfl | he
  · rw [compare_lt_iff_lt.mpr he, compare_lt_iff_lt.mpr (h.mul_zpow_lt h' he)]
    rfl
  · rw [compare_eq_iff_eq.mpr rfl, compare_natCast_mul (by positivity)]
    rfl
  · rw [compare_gt_iff_gt.mpr he, compare_gt_iff_gt.mpr (h'.mul_zpow_lt h he)]
    rfl

end Order

section Whole

theorem Canonical.packed (hc : Canonical m e) (h : (e + 1074).toNat * leadingBit + m < infinityBits) :
    let x : Cell := ⟨.ofNat ((e + 1074).toNat * leadingBit + m)⟩
    x.isFinite = true ∧ x.significand = m ∧ x.exponent = e := by
  intro x
  have hbits : x.magnitudeBits = (e + 1074).toNat * leadingBit + m := magnitudeBits_ofNat (h.trans (by decide))
  have hle := hc.le
  have hlt := hc.lt
  refine ⟨decide_eq_true (by rw [hbits]; exact h), ?_, ?_⟩
  · rw [significand, biasedExponent, fraction, hbits, leadingBit]
    rcases hc.leading with hleading | rfl
    · split <;> omega
    · split <;> omega
  · rw [exponent, biasedExponent, hbits, leadingBit]
    rcases hc.leading with hleading | rfl
    · omega
    · omega

theorem exists_canonical (hn : n ≠ 0) (h : n < 2 ^ 53) : ∃ m e, Canonical m e ∧ e ≤ 0 ∧ (n : ℚ) = m * 2 ^ e := by
  have hlog : n.log2 < 53 := (Nat.log2_lt hn).mpr h
  have hlow : 2 ^ n.log2 ≤ n := Nat.log2_self_le hn
  have hhigh : n < 2 ^ (n.log2 + 1) := Nat.lt_log2_self
  have hpow (k : Nat) : 2 ^ (n.log2 + k) * 2 ^ (52 - n.log2) = 2 ^ (52 + k) := by
    rw [← Nat.pow_add]
    congr 1
    omega
  refine ⟨n * 2 ^ (52 - n.log2), n.log2 - 52, ⟨?_, by omega, .inl ?_⟩, by omega, ?_⟩
  · exact (Nat.mul_lt_mul_of_pos_right hhigh (Nat.two_pow_pos _)).trans_eq (hpow 1)
  · exact (hpow 0).symm.trans_le (Nat.mul_le_mul_right _ hlow)
  · have hexponent : (n.log2 : ℤ) - 52 = -(52 - n.log2 : ℕ) := by omega
    rw [hexponent, zpow_neg, zpow_natCast, Nat.cast_mul, Nat.cast_pow, Nat.cast_ofNat]
    field_simp

theorem ofNat_spec (h : n < 2 ^ 53) : (ofNat n).isFinite = true ∧ (ofNat n).toRat = n := by
  by_cases hn : n = 0
  · rw [hn]
    exact ⟨by decide, toRat_eq_zero_iff.mpr (by decide)⟩
  · obtain ⟨m, e, hc, he, hvalue⟩ := exists_canonical hn h
    have hm : m ≠ 0 := by
      rintro rfl
      rw [Nat.cast_zero, zero_mul, Nat.cast_eq_zero] at hvalue
      exact hn hvalue
    have hlt := hc.lt
    have hbits : (e + 1074).toNat * leadingBit + m < infinityBits := by
      simp only [leadingBit, infinityBits]
      omega
    have hcell : ofNat n = ⟨.ofNat ((e + 1074).toNat * leadingBit + m)⟩ := by
      rw [ofNat, hc.nearest_eq hm one_ne_zero (by rw [hvalue, Nat.cast_one, mul_one]), Nat.min_eq_left hbits.le]
    have hsign : (ofNat n).isNegative = false := isNegative_nearest n 1
    obtain ⟨hfinite, hsignificand, hexponent⟩ := hc.packed hbits
    rw [hcell] at hsign ⊢
    refine ⟨hfinite, ?_⟩
    rw [toRat, sign, hsign, hsignificand, hexponent, hvalue]
    rfl

theorem isFinite_ofNat (h : n < 2 ^ 53) : (ofNat n).isFinite = true := (ofNat_spec h).1

theorem toRat_ofNat (h : n < 2 ^ 53) : (ofNat n).toRat = n := (ofNat_spec h).2

end Whole

end StackCalc.Cell
