import StackCalc.Decimal.Shortest
import StackCalc.Proofs.Cell.Signs

namespace StackCalc

namespace Decimal

variable {x : Cell} {d : Decimal}

theorem toCell_of_scaled {n k : Nat} (h : n ≠ 0 → k ≤ n.log2) : toCell ⟨n, -k⟩ = Cell.nearest n (10 ^ k) := by
  rw [toCell]
  split
  case isTrue hn =>
    have hn : n = 0 := hn
    rw [hn, Cell.nearest, if_pos rfl]
  case isFalse hn =>
    have hk := h hn
    have hlarge : ¬(308 : Int) < -k := by omega
    have hsmall : ¬(-k : Int) < -(324 + n.log2) := by omega
    have hnone : (-(k : Int)).toNat = 0 := by omega
    have hscale : (-(-(k : Int))).toNat = k := by omega
    rw [if_neg hlarge, if_neg hsmall, hnone, hscale]
    simp [tenTo]

theorem toCell_of_pow (n : Nat) {k : Nat} (hk : k ≤ 308) : toCell ⟨n, k⟩ = Cell.nearest (n * 10 ^ k) 1 := by
  rw [toCell]
  split
  case isTrue hn =>
    have hn : n = 0 := hn
    rw [hn, Nat.zero_mul, Cell.nearest, if_pos rfl]
  case isFalse =>
    have hlarge : ¬(308 : Int) < k := by omega
    have hsmall : ¬(k : Int) < -(324 + n.log2) := by omega
    have hnone : (-(k : Int)).toNat = 0 := by omega
    rw [if_neg hlarge, if_neg hsmall, hnone, Int.toNat_natCast]
    rfl

theorem toCell_mul_pow (n : Nat) {k : Nat} (hk : k ≤ 308) : toCell ⟨n * 10 ^ k, 0⟩ = toCell ⟨n, k⟩ := by
  have hwhole : toCell ⟨n * 10 ^ k, (0 : Nat)⟩ = Cell.nearest (n * 10 ^ k * 10 ^ 0) 1 :=
    toCell_of_pow _ (Nat.zero_le _)
  rw [pow_zero, Nat.mul_one] at hwhole
  rw [toCell_of_pow n hk]
  exact hwhole

theorem ofBinary_toCell (hx : x.isFinite = true) : (ofBinary x.significand x.exponent).toCell = x.abs := by
  generalize hk : (-x.exponent).toNat = k
  have hofBinary : ofBinary x.significand x.exponent = ⟨x.significand <<< x.exponent.toNat * 5 ^ k, -k⟩ := by
    rw [ofBinary, hk]
    rfl
  have hvalue : ((x.significand <<< x.exponent.toNat * 5 ^ k : Nat) : ℚ) =
      x.significand * 2 ^ x.exponent * (10 ^ k : Nat) := by
    have hten : (10 : ℚ) ^ k = 2 ^ k * 5 ^ k := by
      rw [← mul_pow]
      norm_num
    rw [Nat.shiftLeft_eq]
    push_cast
    rw [← Cell.zpow_mul_pow_toNat, hk, hten]
    ring
  have hlog (hn : x.significand <<< x.exponent.toNat * 5 ^ k ≠ 0) :
      k ≤ (x.significand <<< x.exponent.toNat * 5 ^ k).log2 := by
    apply (Nat.le_log2 hn).mpr
    calc 2 ^ k ≤ 5 ^ k := Nat.pow_le_pow_left (by decide) k
      _ ≤ x.significand <<< x.exponent.toNat * 5 ^ k :=
        Nat.le_mul_of_pos_left _ (Nat.pos_of_ne_zero (left_ne_zero_of_mul hn))
  rw [hofBinary, toCell_of_scaled hlog, Cell.nearest_eq_abs hx (by positivity) hvalue]

theorem coarsest_toCell (h : d.toCell = x) (drop : Nat) : (coarsest x d drop).toCell = x := by
  induction drop with
  | zero => exact h
  | succ drop ih =>
    rw [coarsest]
    split
    case h_1 hbelow habove =>
      rw [nearer]
      split
      · exact of_decide_eq_true hbelow
      · exact of_decide_eq_true habove
    case h_2 hbelow _ => exact of_decide_eq_true hbelow
    case h_3 _ habove => exact of_decide_eq_true habove
    case h_4 => exact ih

theorem shortest_toCell (hx : x.isFinite = true) : (shortest x.abs).toCell = x.abs := by
  apply coarsest_toCell
  rw [ofBinary_toCell (by rwa [Cell.isFinite_abs]), Cell.abs_abs]

end Decimal

end StackCalc
