import StackCalc.Decimal.Numeral
import StackCalc.Proofs.Cell.Signs
import StackCalc.Proofs.Scanning.Choice

namespace StackCalc

theorem Decimal.isNegative_toCell (d : Decimal) : d.toCell.isNegative = false := by
  rw [toCell]
  split
  · decide
  · split
    · decide
    · split
      · decide
      · exact Cell.isNegative_nearest ..

theorem Decimal.isNaN_toCell (d : Decimal) : d.toCell.isNaN = false := by
  rw [toCell]
  split
  · decide
  · split
    · decide
    · split
      · decide
      · exact Cell.isNaN_nearest ..

namespace Numeral

variable {cs whole fraction : List Char}

theorem decimal?_whole (h : Digits whole) : decimal? whole = some ⟨value whole, 0⟩ := by
  rw [decimal?, List.takeWhile_eq_self_iff.mpr h.2, List.dropWhile_eq_nil_iff.mpr h.2]
  simp [splitFraction, exponent?, h.1]

theorem decimal?_fraction (hw : Digits whole) (hf : Digits fraction) :
    decimal? (whole ++ '.' :: fraction) = some ⟨value (whole ++ fraction), -fraction.length⟩ := by
  obtain ⟨htake, hdrop⟩ := takeWhile_append_after hw.2 (not_next_point fraction)
  rw [decimal?, htake, hdrop, splitFraction, List.takeWhile_eq_self_iff.mpr hf.2,
    List.dropWhile_eq_nil_iff.mpr hf.2]
  simp [exponent?, hw.1]

theorem decimal?_isSome (h : Kind.number.Matches cs) : ∃ d, decimal? cs = some d := by
  rcases h with h | ⟨whole, fraction, hw, hf, rfl⟩
  · exact ⟨_, decimal?_whole h⟩
  · exact ⟨_, decimal?_fraction hw hf⟩

theorem toLower_of_isDigit {c : Char} (h : c.isDigit = true) : c.toLower = c := by
  have hd : 48 ≤ c.toNat ∧ c.toNat ≤ 57 := Char.isDigit_iff_toNat.mp h
  apply dif_neg
  rintro ⟨hlow, -⟩
  have hlow : 65 ≤ c.toNat := hlow
  omega

theorem magnitude?_of_next (h : Next Char.isDigit cs) : magnitude? cs = (decimal? cs).map Decimal.toCell := by
  obtain ⟨c, hc, hd⟩ := h
  -- No name of a number begins with a digit.
  have hname (name : String) (hn : name.toList.head?.any Char.isDigit = false) :
      String.ofList (cs.map Char.toLower) ≠ name := by
    rintro rfl
    rw [String.toList_ofList, List.head?_map, hc, Option.map_some, toLower_of_isDigit hd] at hn
    cases hd.symm.trans hn
  unfold magnitude?
  split
  case h_1 htext => exact absurd htext (hname _ rfl)
  case h_2 htext => exact absurd htext (hname _ rfl)
  case h_3 htext => exact absurd htext (hname _ rfl)
  case h_4 => rfl

theorem next_of_matches (h : Kind.number.Matches cs) : Next Char.isDigit cs := by
  rcases h with h | ⟨whole, fraction, hw, -, rfl⟩
  · rw [← List.append_nil cs]
    exact h.next
  · exact hw.next

theorem splitSign_of_matches (h : Kind.number.Matches cs) : splitSign cs = (false, cs) := by
  obtain ⟨c, rest, rfl⟩ := List.exists_cons_of_ne_nil h.ne_nil
  have hleader := h.leader_eq (by decide)
  unfold splitSign
  split
  · rename_i hcs
    cases hcs
    exact absurd hleader (by decide)
  · rename_i hcs
    cases hcs
    exact absurd hleader (by decide)
  · rfl

theorem read?_of_matches (h : Kind.number.Matches cs) :
    read? (.ofList cs) = (decimal? cs).map Decimal.toCell := by
  rw [read?, String.toList_ofList, splitSign_of_matches h]
  have hsign (x : Cell) : Cell.withSign false x = x := rfl
  simp only [magnitude?_of_next (next_of_matches h), Option.map_map, Function.comp_def, hsign]

theorem read?_isSome (h : Kind.number.Matches cs) : ∃ x, read? (.ofList cs) = some x := by
  obtain ⟨d, hd⟩ := decimal?_isSome h
  exact ⟨d.toCell, by rw [read?_of_matches h, hd]; rfl⟩

theorem isNegative_of_read? {x : Cell} (h : Kind.number.Matches cs) (hx : read? (.ofList cs) = some x) :
    x.isNegative = false := by
  rw [read?_of_matches h] at hx
  obtain ⟨d, -, rfl⟩ := Option.map_eq_some_iff.mp hx
  exact d.isNegative_toCell

theorem isNaN_of_read? {x : Cell} (h : Kind.number.Matches cs) (hx : read? (.ofList cs) = some x) :
    x.isNaN = false := by
  rw [read?_of_matches h] at hx
  obtain ⟨d, -, rfl⟩ := Option.map_eq_some_iff.mp hx
  exact d.isNaN_toCell

end Numeral

end StackCalc
