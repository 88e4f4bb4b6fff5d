import StackCalc.Proofs.Cell.Parts
import StackCalc.Proofs.Machine.Steps

namespace StackCalc.Opcode

variable {x : Cell} {op : Opcode} {n : Nat}

section Numbers

theorem mem_all (op : Opcode) : op ∈ all := by
  cases op with
  | operate op => cases op <;> decide
  | pushNumber | negate | halt => decide

theorem number_of_getElem? (h : all[n]? = some op) : op.number = n := by
  obtain ⟨hn, rfl⟩ := List.getElem?_eq_some_iff.mp h
  exact List.Nodup.idxOf_getElem (by decide) n hn

theorem number_lt (op : Opcode) : op.number < 2 ^ 53 :=
  (List.idxOf_lt_length_of_mem op.mem_all).trans (by decide)

theorem toRat_cell (op : Opcode) : op.cell.toRat = op.number := Cell.toRat_ofNat op.number_lt

theorem isFinite_cell (op : Opcode) : op.cell.isFinite = true := Cell.isFinite_ofNat op.number_lt

end Numbers

section Lookup

theorem exists_number (hfract : x.fract.equals .zero = true) (hlow : Cell.zero ≤ x) (hhigh : x ≤ .ofNat 8) :
    x.isFinite = true ∧ ∃ n ≤ 8, x.toRat = (n : Nat) ∧ x.toUInt8.toNat = n := by
  have height : (Cell.ofNat 8).isFinite = true := Cell.isFinite_ofNat (by decide)
  have hx : x.isFinite = true := Cell.isFinite_of_le_of_le (by decide) height hlow hhigh
  have hbyte := Cell.toNat_toUInt8 hx
  rw [Cell.fract_equals_zero_iff hx] at hfract
  rw [Cell.le_iff_toRat_le (by decide) hx, Cell.toRat_eq_zero_iff.mpr (by decide), hfract] at hlow
  rw [Cell.le_iff_toRat_le hx height, Cell.toRat_ofNat (by decide), hfract] at hhigh
  have hnonneg : 0 ≤ x.sign.apply x.wholePart := by exact_mod_cast hlow
  have hle : x.sign.apply x.wholePart ≤ 8 := by exact_mod_cast hhigh
  obtain ⟨n, hn⟩ := Int.eq_ofNat_of_zero_le hnonneg
  rw [hn] at hfract hbyte hle
  refine ⟨hx, n, by omega, by rw [hfract, Int.cast_natCast], ?_⟩
  rw [hbyte, Int.toNat_natCast]
  omega

theorem exists_equals (hfract : x.fract.equals .zero = true) (hlow : Cell.zero ≤ x) (hhigh : x ≤ .ofNat 8) :
    ∃ op, all[x.toUInt8.toNat]? = some op ∧ x.equals op.cell = true := by
  obtain ⟨hx, n, hn, hvalue, hbyte⟩ := exists_number hfract hlow hhigh
  have hlength : n < all.length := Nat.lt_succ_of_le hn
  have hop : all[n]? = some all[n] := List.getElem?_eq_getElem hlength
  refine ⟨all[n], by rw [hbyte, hop], ?_⟩
  rw [Cell.equals_iff_toRat_eq hx (isFinite_cell _), toRat_cell, number_of_getElem? hop, hvalue]

theorem lookup_of_ofCell? (h : ofCell? x = some op) :
    (x.fract.equals .zero = true ∧ Cell.zero ≤ x ∧ x ≤ .ofNat 8) ∧ all[x.toUInt8.toNat]? = some op := by
  rw [ofCell?] at h
  split at h
  case isTrue hwhole => exact ⟨hwhole, h⟩
  case isFalse => cases h

theorem equals_of_ofCell? (h : ofCell? x = some op) : x.equals op.cell = true := by
  obtain ⟨⟨hfract, hlow, hhigh⟩, hlookup⟩ := lookup_of_ofCell? h
  obtain ⟨op', hop, hequals⟩ := exists_equals hfract hlow hhigh
  rw [hlookup, Option.some.injEq] at hop
  rw [hop]
  exact hequals

end Lookup

section Zeros

theorem eq_or_isZero_of_equals (h : x.equals op.cell = true) :
    x = op.cell ∨ x.isZero = true ∧ op.cell.isZero = true := by
  simpa using (Bool.and_eq_true_iff.mp h).2

theorem eq_cell_of_ofCell? (h : ofCell? x = some op) : x = op.cell ∨ x.isZero = true ∧ op.cell.isZero = true :=
  eq_or_isZero_of_equals (equals_of_ofCell? h)

theorem ofCell?_eq_pushNumber : ofCell? x = some pushNumber ↔ x.isZero = true := by
  constructor
  · intro h
    rcases eq_cell_of_ofCell? h with rfl | ⟨hx, -⟩
    · decide +kernel
    · exact hx
  · intro h
    rcases Cell.eq_of_isZero h with rfl | rfl <;> decide +kernel

theorem eq_pushNumber_of_isZero (h : op.cell.isZero = true) : op = pushNumber := by
  have hpush := ofCell?_eq_pushNumber.mpr h
  rw [ofCell?_cell] at hpush
  exact Option.some.inj hpush

theorem eq_cell_of_ne_pushNumber (h : ofCell? x = some op) (hop : op ≠ pushNumber) : x = op.cell :=
  (eq_cell_of_ofCell? h).resolve_right fun hzero => hop (eq_pushNumber_of_isZero hzero.2)

theorem isZero_eq_false (h : ofCell? x ≠ some pushNumber) : x.isZero = false := by
  rw [← Bool.not_eq_true]
  exact fun hx => h (ofCell?_eq_pushNumber.mpr hx)

theorem ofCell?_of_equals (h : x.equals op.cell = true) : ofCell? x = some op := by
  rcases eq_or_isZero_of_equals h with rfl | ⟨hx, hop⟩
  · exact op.ofCell?_cell
  · rw [eq_pushNumber_of_isZero hop, ofCell?_eq_pushNumber, hx]

theorem ne_cell_of_isNegative (h : x.isNegative = true) (op : Opcode) : x ≠ op.cell := by
  rintro rfl
  cases h.symm.trans (Cell.isNegative_nearest op.number 1)

end Zeros

/-- The cells that decode are those equal to the cell of an opcode. Of the cells that are no opcode's, the only one is
the negative zero. A cell is looked up only where its byte finds the opcode that it equals. -/
theorem decodes_encodings :
    (∀ (x : Cell) (op : Opcode), ofCell? x = some op ↔ x.equals op.cell = true) ∧
    (∀ (x : Cell) (op : Opcode), (ofCell? x = some op ∧ ∀ op' : Opcode, x ≠ op'.cell) ↔
      x.bits = 0x8000000000000000 ∧ op = pushNumber) ∧
    ∀ x : Cell, (x.fract.equals .zero = true ∧ Cell.zero ≤ x ∧ x ≤ .ofNat 8) ↔
      ∃ op, all[x.toUInt8.toNat]? = some op ∧ x.equals op.cell = true := by
  refine ⟨fun x op => ⟨equals_of_ofCell?, ofCell?_of_equals⟩, fun x op => ⟨?_, ?_⟩, fun x => ⟨?_, ?_⟩⟩
  · rintro ⟨h, hne⟩
    obtain ⟨hx, hop⟩ := (eq_cell_of_ofCell? h).resolve_left (hne op)
    have hzero : x ≠ .zero := hne pushNumber
    rw [(Cell.eq_of_isZero hx).resolve_left hzero]
    exact ⟨rfl, eq_pushNumber_of_isZero hop⟩
  · rintro ⟨hbits, rfl⟩
    have hx : x = -.zero := congrArg Cell.mk hbits
    rw [hx]
    exact ⟨ofCell?_eq_pushNumber.mpr (by decide), ne_cell_of_isNegative (by decide)⟩
  · rintro ⟨hfract, hlow, hhigh⟩
    exact exists_equals hfract hlow hhigh
  · rintro ⟨op, -, hequals⟩
    exact (lookup_of_ofCell? (ofCell?_of_equals hequals)).1

-- The cell after that of eight is no whole number, though its byte is eight.
example : ofCell? ⟨0x4020000000000001⟩ = none ∧ Cell.toUInt8 ⟨0x4020000000000001⟩ = 8 := by decide +kernel

end StackCalc.Opcode
