import StackCalc.Error
import StackCalc.Proofs.Decimal.Display

namespace StackCalc

section Texts

variable {label p q s t rest rest' : String} {m n : Nat}

theorem comparable_of_append_eq (h : p ++ rest = q ++ rest') : p.toList <+: q.toList ∨ q.toList <+: p.toList := by
  have hp : p.toList <+: (p ++ rest).toList := ⟨rest.toList, String.toList_append.symm⟩
  have hq : q.toList <+: (p ++ rest).toList := ⟨rest'.toList, by rw [h, String.toList_append]⟩
  exact List.prefix_or_prefix_of_prefix hp hq

theorem takeWhile_reverse_number (hs : s.toList.getLast? = some ' ') (n : Nat) :
    (s ++ toString n).toList.reverse.takeWhile Char.isDigit = (Nat.toDigits 10 n).reverse ∧
      (s ++ toString n).toList.reverse.dropWhile Char.isDigit = s.toList.reverse := by
  rw [String.toList_append, Nat.toString_eq_ofList_toDigits, String.toList_ofList, List.reverse_append]
  apply takeWhile_append_after
  · intro c hc
    exact (digits_toDigits n).2 c (List.mem_reverse.mp hc)
  · rintro ⟨c, hc, hdigit⟩
    -- The text in front of the number ends in a space.
    rw [List.head?_reverse, hs] at hc
    cases hc
    cases hdigit

theorem eq_of_append_number (hs : s.toList.getLast? = some ' ') (ht : t.toList.getLast? = some ' ')
    (h : s ++ toString m = t ++ toString n) : s = t ∧ m = n := by
  obtain ⟨hdigits, hrest⟩ := takeWhile_reverse_number hs m
  obtain ⟨hdigits', hrest'⟩ := takeWhile_reverse_number ht n
  rw [h] at hdigits hrest
  have hnumber : Nat.toDigits 10 m = Nat.toDigits 10 n := List.reverse_inj.mp (hdigits.symm.trans hdigits')
  refine ⟨String.toList_inj.mp (List.reverse_inj.mp (hrest.symm.trans hrest')), ?_⟩
  rw [← value_toDigits m, hnumber, value_toDigits]

theorem eq_of_append_label_number (hlabel : label.toList.getLast? = some ' ')
    (h : s ++ (label ++ toString m) = t ++ (label ++ toString n)) : s = t ∧ m = n := by
  have hlast (s : String) : (s ++ label).toList.getLast? = some ' ' := by
    rw [String.toList_append, List.getLast?_append, hlabel]
    rfl
  rw [← String.append_assoc, ← String.append_assoc] at h
  obtain ⟨hs, hm⟩ := eq_of_append_number (hlast s) (hlast t) h
  exact ⟨(String.append_left_inj label).mp hs, hm⟩

end Texts

theorem LexError.message_injective : Function.Injective message := by
  intro e e' h
  -- `rw [message]` would make Lean generate equations for the texts, which takes it too long.
  delta message at h
  cases e <;> cases e' <;> simp only [String.append_assoc] at h
  case unexpectedSymbol.unexpectedSymbol =>
    rw [String.append_right_inj] at h
    obtain ⟨rfl, rfl⟩ := eq_of_append_label_number (by decide) h
    rfl
  case ambiguousMatch.ambiguousMatch =>
    obtain ⟨-, rfl⟩ := eq_of_append_number (by decide) (by decide) h
    rfl
  case noMatch.noMatch =>
    obtain ⟨-, rfl⟩ := eq_of_append_number (by decide) (by decide) h
    rfl
  all_goals exact absurd (comparable_of_append_eq h) (by decide)

theorem ParseError.message_injective : Function.Injective message := by
  intro e e' h
  delta message at h
  cases e <;> cases e' <;> simp only [String.append_assoc] at h
  case tooDeep.tooDeep =>
    obtain ⟨-, rfl⟩ := eq_of_append_number (by decide) (by decide) h
    rfl
  case expressionExpected.expressionExpected | unclosedGroup.unclosedGroup | operatorExpected.operatorExpected |
      invalidNumber.invalidNumber =>
    rw [String.append_right_inj] at h
    obtain ⟨rfl, rfl⟩ := eq_of_append_label_number (by decide) h
    rfl
  all_goals exact absurd (comparable_of_append_eq h) (by decide)

/-- A runtime error can name a cell, and all NaNs are written alike. -/
theorem Failure.eq_of_message_eq {f f' : Failure} (hf : ∀ cause, f ≠ .runtime cause)
    (h : f'.message = f.message) : f' = f := by
  cases f with
  | runtime cause => exact absurd rfl (hf cause)
  | lex cause =>
    cases f' with
    | lex cause' => exact congrArg lex (LexError.message_injective ((String.append_right_inj _).mp h))
    | _ => exact absurd (comparable_of_append_eq h) (by decide)
  | parse cause =>
    cases f' with
    | parse cause' => exact congrArg parse (ParseError.message_injective ((String.append_right_inj _).mp h))
    | _ => exact absurd (comparable_of_append_eq h) (by decide)

end StackCalc
