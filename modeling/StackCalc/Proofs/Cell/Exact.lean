import Mathlib.Algebra.Order.Field.Power
import Mathlib.Algebra.Order.Field.Rat
import Mathlib.Tactic.Linarith
import Mathlib.Tactic.NormNum
import Mathlib.Tactic.Positivity
import Mathlib.Tactic.Ring
import StackCalc.Cell.Rounding

namespace StackCalc.Cell

def isFinite (x : Cell) : Bool := magnitudeBits x < infinityBits

section Powers

variable {a b m : Nat} {e f : Int}

theorem zpow_mul_pow_toNat (e : Int) : (2 : ℚ) ^ e * 2 ^ (-e).toNat = 2 ^ e.toNat := by
  have he : (e.toNat : Int) = e + (-e).toNat := by omega
  rw [← zpow_natCast, ← zpow_natCast (2 : ℚ) e.toNat, he, zpow_add₀ (by norm_num)]

theorem shiftLeft_le_iff : b <<< e.toNat ≤ a <<< (-e).toNat ↔ (2 : ℚ) ^ e * b ≤ a := by
  have hpos : (0 : ℚ) < 2 ^ (-e).toNat := by positivity
  rw [← mul_le_mul_iff_of_pos_right hpos, mul_right_comm, zpow_mul_pow_toNat, Nat.shiftLeft_eq, Nat.shiftLeft_eq,
    mul_comm b]
  exact_mod_cast Iff.rfl

theorem floorLog2_spec (ha : a ≠ 0) (hb : b ≠ 0) :
    (2 : ℚ) ^ floorLog2 a b * b ≤ a ∧ (a : ℚ) < 2 ^ (floorLog2 a b + 1) * b := by
  have hlow : (2 : ℚ) ^ (a.log2 : Int) ≤ a := by exact_mod_cast Nat.log2_self_le ha
  have hhigh : (a : ℚ) < 2 ^ (a.log2 + 1 : Int) := by exact_mod_cast Nat.lt_log2_self
  have hlow' : (2 : ℚ) ^ (b.log2 : Int) ≤ b := by exact_mod_cast Nat.log2_self_le hb
  have hhigh' : (b : ℚ) < 2 ^ (b.log2 + 1 : Int) := by exact_mod_cast Nat.lt_log2_self
  have hmul (e k : Int) : (2 : ℚ) ^ e * 2 ^ k = 2 ^ (e + k) := (zpow_add₀ (by norm_num) e k).symm
  have hpos (e : Int) : (0 : ℚ) < 2 ^ e := by positivity
  unfold floorLog2
  dsimp only
  split
  case isTrue h =>
    refine ⟨shiftLeft_le_iff.mp h, ?_⟩
    calc (a : ℚ) < 2 ^ (a.log2 + 1 : Int) := hhigh
      _ = 2 ^ (a.log2 - b.log2 + 1 : Int) * 2 ^ (b.log2 : Int) := by rw [hmul]; congr 1; omega
      _ ≤ 2 ^ (a.log2 - b.log2 + 1 : Int) * b := mul_le_mul_of_nonneg_left hlow' (hpos _).le
  case isFalse h =>
    rw [Int.sub_add_cancel]
    refine ⟨?_, not_le.mp (mt shiftLeft_le_iff.mpr h)⟩
    calc (2 : ℚ) ^ (a.log2 - b.log2 - 1 : Int) * b
        ≤ 2 ^ (a.log2 - b.log2 - 1 : Int) * 2 ^ (b.log2 + 1 : Int) :=
          mul_le_mul_of_nonneg_left hhigh'.le (hpos _).le
      _ = 2 ^ (a.log2 : Int) := by rw [hmul]; congr 1; omega
      _ ≤ a := hlow

theorem floorLog2_eq (hb : b ≠ 0) (hlow : (2 : ℚ) ^ f * b ≤ a) (hhigh : (a : ℚ) < 2 ^ (f + 1) * b) :
    floorLog2 a b = f := by
  have hbpos : (0 : ℚ) < b := by exact_mod_cast Nat.pos_of_ne_zero hb
  have ha : a ≠ 0 := by
    rintro rfl
    have : (0 : ℚ) < 2 ^ f * b := by positivity
    simp only [Nat.cast_zero] at hlow
    linarith
  obtain ⟨hlow', hhigh'⟩ := floorLog2_spec ha hb
  have hle {e k : Int} (h : (2 : ℚ) ^ e * b ≤ a) (h' : (a : ℚ) < 2 ^ (k + 1) * b) : e ≤ k := by
    have hlt : (2 : ℚ) ^ e < 2 ^ (k + 1) := lt_of_mul_lt_mul_right (h.trans_lt h') hbpos.le
    exact Int.lt_add_one_iff.mp ((zpow_lt_zpow_iff_right₀ (by norm_num)).mp hlt)
  exact Int.le_antisymm (hle hlow' hhigh) (hle hlow hhigh')

theorem floorLog2_of_eq (hm : m ≠ 0) (hb : b ≠ 0) (h : (a : ℚ) = m * 2 ^ e * b) :
    floorLog2 a b = m.log2 + e := by
  have hbpos : (0 : ℚ) < b := by exact_mod_cast Nat.pos_of_ne_zero hb
  have hlow : (2 : ℚ) ^ (m.log2 : Int) ≤ m := by exact_mod_cast Nat.log2_self_le hm
  have hhigh : (m : ℚ) < 2 ^ (m.log2 + 1 : Int) := by exact_mod_cast Nat.lt_log2_self
  have hpos : (0 : ℚ) < 2 ^ e := by positivity
  apply floorLog2_eq hb
  · rw [h, zpow_add₀ (by norm_num)]
    gcongr
  · have hexponent : (m.log2 : Int) + e + 1 = m.log2 + 1 + e := by omega
    rw [h, hexponent, zpow_add₀ (by norm_num)]
    gcongr

end Powers

theorem roundHalfEven_mul {b : Nat} (hb : b ≠ 0) (m : Nat) : roundHalfEven (m * b) b = m := by
  have hpos := Nat.pos_of_ne_zero hb
  rw [roundHalfEven, Nat.mul_mod_left, Nat.mul_div_cancel m hpos]
  exact if_pos (.inl hpos)

section Nearest

variable {x : Cell} {a b m : Nat} {e : Int}

/-- The significand and the exponent of a finite cell: only the smallest exponent goes with a significand
without leading bit. -/
structure Canonical (m : Nat) (e : Int) : Prop where
  lt : m < 2 ^ 53
  le : -1074 ≤ e
  leading : 2 ^ 52 ≤ m ∨ e = -1074

theorem Canonical.lastPlace_eq (hc : Canonical m e) (hm : m ≠ 0) (hb : b ≠ 0)
    (h : (a : ℚ) = m * 2 ^ e * b) : lastPlace a b = e := by
  have hlt : m.log2 < 53 := (Nat.log2_lt hm).mpr hc.lt
  have hle := hc.le
  rw [lastPlace, floorLog2_of_eq hm hb h]
  rcases hc.leading with hleading | rfl
  · have hlog : 52 ≤ m.log2 := (Nat.le_log2 hm).mpr hleading
    omega
  · omega

theorem shiftLeft_eq_of_eq (h : (a : ℚ) = m * 2 ^ e * b) : a <<< (-e).toNat = m * b <<< e.toNat := by
  rw [Nat.shiftLeft_eq, Nat.shiftLeft_eq]
  have hcast : (a : ℚ) * 2 ^ (-e).toNat = m * (b * 2 ^ e.toNat) := by
    calc (a : ℚ) * 2 ^ (-e).toNat = m * b * (2 ^ e * 2 ^ (-e).toNat) := by rw [h]; ring
      _ = m * (b * 2 ^ e.toNat) := by rw [zpow_mul_pow_toNat]; ring
  exact_mod_cast hcast

theorem Canonical.nearest_eq (hc : Canonical m e) (hm : m ≠ 0) (hb : b ≠ 0) (h : (a : ℚ) = m * 2 ^ e * b) :
    nearest a b = ⟨.ofNat (min ((e + 1074).toNat * leadingBit + m) infinityBits)⟩ := by
  have hbpos : (0 : ℚ) < b := by exact_mod_cast Nat.pos_of_ne_zero hb
  have hmpos : (0 : ℚ) < m := by exact_mod_cast Nat.pos_of_ne_zero hm
  have ha : a ≠ 0 := by
    rintro rfl
    have hpos : (0 : ℚ) < m * 2 ^ e * b := by positivity
    simp only [Nat.cast_zero] at h
    linarith
  have hshift : b <<< e.toNat ≠ 0 := by
    rw [Nat.shiftLeft_eq]
    positivity
  rw [nearest, if_neg ha]
  dsimp only
  rw [hc.lastPlace_eq hm hb h, shiftLeft_eq_of_eq h, roundHalfEven_mul hshift]

theorem canonical (x : Cell) : Canonical x.significand x.exponent := by
  have hmod : x.fraction < leadingBit := Nat.mod_lt _ (by decide)
  simp only [leadingBit] at hmod
  refine ⟨?_, ?_, ?_⟩
  · rw [significand]
    split
    · omega
    · simp only [leadingBit]
      omega
  · rw [exponent]
    omega
  · rw [significand, exponent]
    split
    · omega
    · simp only [leadingBit]
      omega

theorem magnitudeBits_eq (x : Cell) :
    (x.exponent + 1074).toNat * leadingBit + x.significand = x.magnitudeBits := by
  have hdiv : x.biasedExponent * leadingBit + x.fraction = x.magnitudeBits := Nat.div_add_mod' ..
  rw [significand, exponent, ← hdiv]
  split
  case isTrue hzero =>
    rw [hzero]
    simp
  case isFalse hne =>
    obtain ⟨k, hk⟩ := Nat.exists_eq_succ_of_ne_zero hne
    have hexponent : (((max x.biasedExponent 1 : Nat) : Int) - 1075 + 1074).toNat = k := by omega
    rw [hk] at hexponent ⊢
    rw [hexponent, Nat.succ_mul, Nat.add_assoc]

theorem nearest_eq_abs (hx : x.isFinite = true) (hb : b ≠ 0)
    (h : (a : ℚ) = x.significand * 2 ^ x.exponent * b) : nearest a b = x.abs := by
  have hc := x.canonical
  have hbits := x.magnitudeBits_eq
  by_cases hm : x.significand = 0
  · have ha : a = 0 := by
      rw [hm] at h
      simpa using h
    have he : x.exponent = -1074 := hc.leading.resolve_left (by omega)
    rw [hm, he] at hbits
    have hzero : x.magnitudeBits = 0 := by simpa using hbits.symm
    rw [nearest, if_pos ha, abs, hzero]
    rfl
  · have hlt : x.magnitudeBits < infinityBits := of_decide_eq_true hx
    rw [hc.nearest_eq hm hb h, hbits, Nat.min_eq_left hlt.le, abs]

end Nearest

end StackCalc.Cell
