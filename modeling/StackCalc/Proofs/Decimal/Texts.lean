import StackCalc.Proofs.Readback

namespace StackCalc

namespace Cell

variable {x : Cell}

def plain (x : Cell) : Cell := if x.isNaN then nan else x

theorem plain_of_not_isNaN (h : x.isNaN = false) : x.plain = x := by
  rw [plain, h]
  rfl

theorem eq_or_isNaN_of_plain_eq {y : Cell} (h : x.plain = y.plain) : x = y ∨ x.isNaN = true ∧ y.isNaN = true := by
  have hnan : nan.isNaN = true := by decide
  cases hx : x.isNaN with
  | true =>
    cases hy : y.isNaN with
    | true => exact .inr ⟨rfl, rfl⟩
    | false =>
      rw [plain, hx, plain_of_not_isNaN hy] at h
      rw [← h] at hy
      cases hnan.symm.trans hy
  | false =>
    cases hy : y.isNaN with
    | true =>
      rw [plain_of_not_isNaN hx, plain, hy] at h
      rw [h] at hx
      cases hnan.symm.trans hx
    | false =>
      rw [plain_of_not_isNaN hx, plain_of_not_isNaN hy] at h
      exact .inl h

theorem display_of_isNaN (h : x.isNaN = true) : x.display = "NaN" := by
  rw [display, write, h]
  rfl

theorem abs_of_isInf (h : x.isInf = true) : x.abs = infinity :=
  congrArg (fun n => Cell.mk (.ofNat n)) (of_decide_eq_true h)

theorem display_of_isInf (h : x.isInf = true) :
    x.display = .ofList (if x.isNegative then '-' :: ['i', 'n', 'f'] else ['i', 'n', 'f']) := by
  have hbits : x.magnitudeBits = infinityBits := of_decide_eq_true h
  have hnan : x.isNaN = false := decide_eq_false (by omega)
  rw [display, write, hnan, h]
  cases x.isNegative <;> rfl

end Cell

section Readback

open Numeral

variable {x : Cell} {cs : List Char}

theorem not_blank_of_all (h : cs.all (!Text.isBlank ·) = true) : ∀ c ∈ cs, Text.isBlank c = false := by
  simpa using h

/-- A text that is read as the magnitude of a cell, with nothing in front that could be a sign. -/
structure Unsigned (cs : List Char) (x : Cell) : Prop where
  splitSign : splitSign cs = (false, cs)
  magnitude : magnitude? cs = some x.abs
  not_blank : ∀ c ∈ cs, Text.isBlank c = false
  ne_nil : cs ≠ []

theorem exists_unsigned (h : x.isNaN = false) :
    ∃ cs, Unsigned cs x ∧ x.display = .ofList (if x.isNegative then '-' :: cs else cs) := by
  cases hfinite : x.isFinite with
  | true =>
    obtain ⟨cs, hm, hread, hdisplay⟩ := Cell.exists_display hfinite
    have hsign := splitSign_of_matches hm
    have hplus : Cell.withSign false = id := rfl
    rw [read?, String.toList_ofList, hsign] at hread
    simp only [hplus, Option.map_id, id] at hread
    exact ⟨cs, ⟨hsign, hread, hm.not_blank (by decide) (by decide), hm.ne_nil⟩, hdisplay⟩
  | false =>
    have hge : ¬x.magnitudeBits < Cell.infinityBits := of_decide_eq_false hfinite
    have hle : ¬Cell.infinityBits < x.magnitudeBits := of_decide_eq_false h
    have hinf : x.isInf = true := decide_eq_true (by omega)
    refine ⟨['i', 'n', 'f'], ⟨rfl, ?_, not_blank_of_all rfl, by decide⟩, Cell.display_of_isInf hinf⟩
    rw [Cell.abs_of_isInf hinf]
    decide +kernel

theorem Unsigned.read?_signed (h : Unsigned cs x) (negative : Bool) :
    read? (.ofList (if negative then '-' :: cs else cs)) = some (Cell.withSign negative x.abs) := by
  cases negative with
  | false => simp [read?, h.splitSign, h.magnitude]
  | true => simp [read?, Numeral.splitSign, h.magnitude]

theorem Numeral.read?_display (x : Cell) : read? x.display = some x.plain := by
  cases hnan : x.isNaN with
  | true =>
    have hread : read? "NaN" = some Cell.nan := by decide +kernel
    rw [Cell.display_of_isNaN hnan, hread, Cell.plain, hnan]
    rfl
  | false =>
    obtain ⟨cs, hcs, hdisplay⟩ := exists_unsigned hnan
    rw [hdisplay, hcs.read?_signed, Cell.withSign_abs, Cell.plain_of_not_isNaN hnan]

theorem Cell.display_word (x : Cell) :
    x.display.toList ≠ [] ∧ ∀ c ∈ x.display.toList, Text.isBlank c = false := by
  cases hnan : x.isNaN with
  | true =>
    rw [display_of_isNaN hnan]
    exact ⟨by decide, not_blank_of_all rfl⟩
  | false =>
    obtain ⟨cs, hcs, hdisplay⟩ := exists_unsigned hnan
    rw [hdisplay, String.toList_ofList]
    split
    · exact ⟨List.cons_ne_nil _ cs, List.forall_mem_cons.mpr ⟨by decide, hcs.not_blank⟩⟩
    · exact ⟨hcs.ne_nil, hcs.not_blank⟩

end Readback

end StackCalc
