import Mathlib.Data.List.TakeWhile
import StackCalc.Token.Kind

namespace StackCalc

def Digits (cs : List Char) : Prop := cs ≠ [] ∧ ∀ c ∈ cs, c.isDigit = true

def Next (p : Char → Bool) (cs : List Char) : Prop := ∃ c ∈ cs.head?, p c = true

namespace Kind

def Matches : Kind → List Char → Prop
  | number, text =>
    Digits text ∨ ∃ whole fraction, Digits whole ∧ Digits fraction ∧ text = whole ++ '.' :: fraction
  | whitespace, text => text ≠ [] ∧ ∀ c ∈ text, Text.isBlank c = true
  | symbol, text => text ≠ [] ∧ ∀ c ∈ text, (!Text.isBlank c) = true
  | k, text => text = k.display.toList

/-- What comes after would make a match longer, or another kind of match in the case of a star. -/
def Extends : Kind → List Char → List Char → Prop
  | number, text, after =>
    Next Char.isDigit after ∨ '.' ∉ text ∧ ∃ rest, after = '.' :: rest ∧ Next Char.isDigit rest
  | whitespace, _, after => Next Text.isBlank after
  | symbol, _, after => Next (!Text.isBlank ·) after
  | star, _, after => Next (· = '*') after
  | _, _, _ => False

def munchFraction : List Char → List Char
  | '.' :: cs => if cs.takeWhile Char.isDigit = [] then [] else '.' :: cs.takeWhile Char.isDigit
  | _ => []

def munchNumber (cs : List Char) : List Char :=
  if cs.takeWhile Char.isDigit = [] then []
  else cs.takeWhile Char.isDigit ++ munchFraction (cs.dropWhile Char.isDigit)

def munchText (text cs : List Char) : List Char := if text.isPrefixOf cs then text else []

/-- The text at the front that the pattern prefers, empty if there is none. -/
def munch : Kind → List Char → List Char
  | number => munchNumber
  | whitespace => List.takeWhile Text.isBlank
  | symbol => List.takeWhile (!Text.isBlank ·)
  | starStar => munchText ['*', '*']
  | leftParen => munchText ['(']
  | rightParen => munchText [')']
  | star => munchText ['*']
  | slash => munchText ['/']
  | percent => munchText ['%']
  | plus => munchText ['+']
  | minus => munchText ['-']

end Kind

section Runs

variable {p : Char → Bool} {cs after : List Char}

theorem takeWhile_append_after (h : ∀ c ∈ cs, p c = true) (hn : ¬Next p after) :
    (cs ++ after).takeWhile p = cs ∧ (cs ++ after).dropWhile p = after := by
  rw [List.takeWhile_append_of_pos h, List.dropWhile_append_of_pos h]
  cases after with
  | nil => simp
  | cons c after =>
    have hc : ¬p c = true := fun hc => hn ⟨c, rfl, hc⟩
    simp [hc]

theorem not_next_dropWhile (p : Char → Bool) (cs : List Char) : ¬Next p (cs.dropWhile p) := by
  rintro ⟨c, hc, hp⟩
  have := List.head?_dropWhile_not p cs
  rw [hc] at this
  simp only [hp] at this
  cases this

theorem takeWhile_ne_nil_iff : cs.takeWhile p ≠ [] ↔ Next p cs := by
  cases cs with
  | nil => simp [Next]
  | cons c cs => by_cases hc : p c = true <;> simp [Next, hc]

theorem digits_takeWhile (h : Next Char.isDigit cs) : Digits (cs.takeWhile Char.isDigit) :=
  ⟨takeWhile_ne_nil_iff.mpr h, fun _ => List.mem_takeWhile_imp⟩

theorem Digits.next (h : Digits cs) : Next Char.isDigit (cs ++ after) := by
  obtain ⟨c, rest, rfl⟩ := List.exists_cons_of_ne_nil h.1
  exact ⟨c, rfl, h.2 c (List.mem_cons_self ..)⟩

theorem Digits.point_notMem (h : Digits cs) : '.' ∉ cs := by
  intro hp
  have := h.2 _ hp
  exact absurd this (by decide)

theorem not_next_point (cs : List Char) : ¬Next Char.isDigit ('.' :: cs) := by
  rintro ⟨c, hc, hd⟩
  cases hc
  exact absurd hd (by decide)

end Runs

namespace Kind

section Number

variable {cs whole fraction after : List Char}

theorem munchFraction_eq_nil (h : ¬∃ rest, after = '.' :: rest ∧ Next Char.isDigit rest) :
    munchFraction after = [] := by
  unfold munchFraction
  split
  case h_1 rest =>
    apply if_pos
    by_contra hne
    exact h ⟨rest, rfl, takeWhile_ne_nil_iff.mp hne⟩
  case h_2 => rfl

theorem munchNumber_whole (h : Digits whole) (he : ¬number.Extends whole after) :
    munchNumber (whole ++ after) = whole := by
  obtain ⟨hd, hp⟩ := not_or.mp he
  obtain ⟨htake, hdrop⟩ := takeWhile_append_after h.2 hd
  have hfraction := munchFraction_eq_nil fun hrest => hp ⟨h.point_notMem, hrest⟩
  rw [munchNumber, htake, hdrop, if_neg h.1, hfraction, List.append_nil]

theorem munchNumber_fraction (hw : Digits whole) (hf : Digits fraction) (hn : ¬Next Char.isDigit after) :
    munchNumber (whole ++ '.' :: (fraction ++ after)) = whole ++ '.' :: fraction := by
  obtain ⟨htake, hdrop⟩ := takeWhile_append_after hw.2 (not_next_point (fraction ++ after))
  rw [munchNumber, htake, hdrop, if_neg hw.1, munchFraction, (takeWhile_append_after hf.2 hn).1, if_neg hf.1]

theorem munchNumber_eq_nil (h : ¬Next Char.isDigit cs) : munchNumber cs = [] := by
  apply if_pos
  by_contra hne
  exact h (takeWhile_ne_nil_iff.mp hne)

theorem exists_number (h : Next Char.isDigit cs) :
    ∃ text after, cs = text ++ after ∧ number.Matches text ∧ ¬number.Extends text after := by
  have hw := digits_takeWhile h
  have hcs : cs = cs.takeWhile Char.isDigit ++ cs.dropWhile Char.isDigit :=
    List.takeWhile_append_dropWhile.symm
  have hd := not_next_dropWhile Char.isDigit cs
  by_cases hp : ∃ rest, cs.dropWhile Char.isDigit = '.' :: rest ∧ Next Char.isDigit rest
  · obtain ⟨rest, hrest, hf⟩ := hp
    have hf := digits_takeWhile hf
    refine ⟨cs.takeWhile Char.isDigit ++ '.' :: rest.takeWhile Char.isDigit, rest.dropWhile Char.isDigit,
      ?_, .inr ⟨_, _, hw, hf, rfl⟩, ?_⟩
    · rw [List.append_assoc, List.cons_append, List.takeWhile_append_dropWhile, ← hrest]
      exact hcs
    · rintro (hnext | ⟨hpoint, -⟩)
      · exact not_next_dropWhile _ _ hnext
      · simp at hpoint
  · refine ⟨_, _, hcs, .inl hw, ?_⟩
    rintro (hnext | ⟨-, hrest⟩)
    · exact hd hnext
    · exact hp hrest

end Number

variable {k k' : Kind} {text cs after : List Char} {c : Char}

theorem Matches.ne_nil (h : k.Matches text) : text ≠ [] := by
  cases k with
  | number =>
    rcases h with h | ⟨whole, fraction, -, -, rfl⟩
    · exact h.1
    · simp
  | whitespace => exact h.1
  | symbol => exact h.1
  | _ =>
    rw [h]
    decide

theorem munch_of_matches (h : k.Matches text) (he : ¬k.Extends text after) :
    k.munch (text ++ after) = text := by
  cases k with
  | number =>
    rcases h with h | ⟨whole, fraction, hw, hf, rfl⟩
    · exact munchNumber_whole h he
    · rw [List.append_assoc]
      exact munchNumber_fraction hw hf (not_or.mp he).1
  | whitespace => exact (takeWhile_append_after h.2 he).1
  | symbol => exact (takeWhile_append_after h.2 he).1
  | _ =>
    rw [h]
    simp [munch, munchText, display]

theorem matches_of_munch (h : k.munch cs = text) (hne : text ≠ []) :
    k.Matches text ∧ ∃ after, cs = text ++ after ∧ (k ≠ star → ¬k.Extends text after) := by
  subst h
  have fixed {literal : List Char} (hne : munchText literal cs ≠ []) :
      munchText literal cs = literal ∧ ∃ after, cs = literal ++ after := by
    simp only [munchText] at hne ⊢
    split at hne
    case isTrue hpre =>
      obtain ⟨after, hafter⟩ := List.isPrefixOf_iff_prefix.mp hpre
      exact ⟨if_pos hpre, after, hafter.symm⟩
    case isFalse => exact absurd rfl hne
  cases k with
  | number =>
    have hnext : Next Char.isDigit cs := by
      by_contra hn
      exact hne (munchNumber_eq_nil hn)
    obtain ⟨text, after, rfl, hm, he⟩ := exists_number hnext
    rw [munch_of_matches hm he]
    exact ⟨hm, after, rfl, fun _ => he⟩
  | whitespace =>
    refine ⟨⟨hne, fun _ => List.mem_takeWhile_imp⟩, cs.dropWhile Text.isBlank, ?_, ?_⟩
    · exact List.takeWhile_append_dropWhile.symm
    · exact fun _ => not_next_dropWhile _ cs
  | symbol =>
    refine ⟨⟨hne, fun _ => List.mem_takeWhile_imp⟩, cs.dropWhile (!Text.isBlank ·), ?_, ?_⟩
    · exact List.takeWhile_append_dropWhile.symm
    · exact fun _ => not_next_dropWhile _ cs
  | star =>
    obtain ⟨htext, after, hafter⟩ := fixed hne
    exact ⟨htext, after, by rw [munch, htext, hafter], fun h => absurd rfl h⟩
  | _ =>
    obtain ⟨htext, after, hafter⟩ := fixed hne
    exact ⟨htext, after, by rw [munch, htext, hafter], fun _ => id⟩

end Kind

end StackCalc
