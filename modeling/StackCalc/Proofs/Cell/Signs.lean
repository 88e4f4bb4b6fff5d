import StackCalc.Proofs.Cell.Exact

namespace StackCalc.Cell

variable {x : Cell} {n : Nat}

section Bits

theorem toNat_bits_lt (x : Cell) : x.bits.toNat < signBit + signBit := x.bits.toNat_lt

theorem magnitudeBits_lt (x : Cell) : x.magnitudeBits < signBit := Nat.mod_lt _ (by decide)

theorem magnitudeBits_ofNat (h : n < signBit) : magnitudeBits ⟨.ofNat n⟩ = n := by
  rw [magnitudeBits, UInt64.toNat_ofNat_of_lt' (h.trans (by decide)), Nat.mod_eq_of_lt h]

theorem isNegative_ofNat (h : n < signBit) : isNegative ⟨.ofNat n⟩ = false := by
  apply decide_eq_false
  rw [UInt64.toNat_ofNat_of_lt' (h.trans (by decide)), Nat.not_le]
  exact h

theorem isNegative_nearest (a b : Nat) : (nearest a b).isNegative = false := by
  rw [nearest]
  split
  case isTrue => decide
  case isFalse => exact isNegative_ofNat ((Nat.min_le_right ..).trans_lt (by decide))

theorem isNaN_nearest (a b : Nat) : (nearest a b).isNaN = false := by
  rw [nearest]
  split
  case isTrue => decide
  case isFalse =>
    apply decide_eq_false
    rw [magnitudeBits_ofNat ((Nat.min_le_right ..).trans_lt (by decide)), Nat.not_lt]
    exact Nat.min_le_right ..

end Bits

section Magnitude

theorem magnitudeBits_abs (x : Cell) : x.abs.magnitudeBits = x.magnitudeBits :=
  magnitudeBits_ofNat x.magnitudeBits_lt

theorem isFinite_abs (x : Cell) : x.abs.isFinite = x.isFinite := by
  rw [isFinite, isFinite, magnitudeBits_abs]

theorem abs_abs (x : Cell) : x.abs.abs = x.abs := by
  rw [abs, magnitudeBits_abs, abs]

theorem abs_of_not_isNegative (h : x.isNegative = false) : x.abs = x := by
  have hlt : x.bits.toNat < signBit := Nat.not_le.mp (of_decide_eq_false h)
  rw [abs, magnitudeBits, Nat.mod_eq_of_lt hlt, UInt64.ofNat_toNat]

theorem neg_abs_of_isNegative (h : x.isNegative = true) : -x.abs = x := by
  have hle : signBit ≤ x.bits.toNat := of_decide_eq_true h
  have hlt := x.toNat_bits_lt
  have hbits : x.magnitudeBits + signBit = x.bits.toNat := by
    rw [magnitudeBits, Nat.mod_eq_sub_mod hle, Nat.mod_eq_of_lt (by omega), Nat.sub_add_cancel hle]
  have hneg : -x.abs = ⟨.ofNat x.magnitudeBits + .ofNat signBit⟩ := rfl
  rw [hneg, ← UInt64.ofNat_add, hbits, UInt64.ofNat_toNat]

theorem withSign_abs (x : Cell) : withSign x.isNegative x.abs = x := by
  cases hsign : x.isNegative with
  | false => exact abs_of_not_isNegative hsign
  | true => exact neg_abs_of_isNegative hsign

theorem eq_of_isZero (h : x.isZero = true) : x = zero ∨ x = -zero := by
  have habs : x.abs = zero := congrArg (fun n => Cell.mk (.ofNat n)) (of_decide_eq_true h)
  have hsign := x.withSign_abs
  rw [habs] at hsign
  cases hn : x.isNegative with
  | false =>
    rw [hn] at hsign
    exact .inl hsign.symm
  | true =>
    rw [hn] at hsign
    exact .inr hsign.symm

end Magnitude

section Negation

theorem toNat_bits_neg (x : Cell) : (-x).bits.toNat = (x.bits.toNat + signBit) % (signBit + signBit) := by
  have hbits : (-x).bits = x.bits + .ofNat signBit := rfl
  rw [hbits, UInt64.toNat_add]
  rfl

theorem magnitudeBits_neg (x : Cell) : (-x).magnitudeBits = x.magnitudeBits := by
  rw [magnitudeBits, magnitudeBits, toNat_bits_neg]
  simp only [signBit]
  omega

theorem isNegative_neg (x : Cell) : (-x).isNegative = !x.isNegative := by
  have hlt := x.toNat_bits_lt
  rw [isNegative, isNegative, toNat_bits_neg, ← decide_not, decide_eq_decide]
  simp only [signBit] at hlt ⊢
  omega

theorem isFinite_withSign (x : Cell) (negative : Bool) : (withSign negative x).isFinite = x.isFinite := by
  cases negative with
  | false => rfl
  | true =>
    change (-x).isFinite = x.isFinite
    rw [isFinite, isFinite, magnitudeBits_neg]

end Negation

section Kinds

theorem not_isNaN_of_isFinite (h : x.isFinite = true) : x.isNaN = false :=
  decide_eq_false (of_decide_eq_true h).not_gt

theorem not_isInf_of_isFinite (h : x.isFinite = true) : x.isInf = false :=
  decide_eq_false (of_decide_eq_true h).ne

theorem isFinite_of_not (hnan : x.isNaN = false) (hinf : x.isInf = false) : x.isFinite = true := by
  have hle : ¬infinityBits < x.magnitudeBits := of_decide_eq_false hnan
  have hne : x.magnitudeBits ≠ infinityBits := of_decide_eq_false hinf
  exact decide_eq_true (by omega)

theorem isFinite_of_isZero (h : x.isZero = true) : x.isFinite = true := by
  rw [isFinite, of_decide_eq_true h]
  rfl

theorem equals_zero_iff : x.equals zero = true ↔ x.isZero = true := by
  have hzero : zero.isZero = true := by decide
  have hnan : zero.isNaN = false := by decide
  simp only [equals, hnan, hzero, Bool.and_eq_true, Bool.or_eq_true, Bool.not_eq_true', Bool.not_false,
    decide_eq_true_eq, and_true]
  constructor
  · rintro ⟨-, rfl | h⟩
    · exact hzero
    · exact h
  · intro h
    exact ⟨not_isNaN_of_isFinite (isFinite_of_isZero h), .inr h⟩

end Kinds

end StackCalc.Cell
