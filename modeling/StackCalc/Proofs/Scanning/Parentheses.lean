import StackCalc.Proofs.Scanning.Lexemes

namespace StackCalc

def Lexeme.spelling (l : Lexeme) : Kind × List Char := (l.kind, l.text)

def Kind.Parenthesis (k : Kind) (c : Char) : Prop :=
  k = .leftParen ∧ c = '(' ∨ k = .rightParen ∧ c = ')'

namespace Kind.Parenthesis

variable {k k' : Kind} {c : Char} {text after : List Char}

theorem ne_whitespace (h : Parenthesis k c) : k ≠ .whitespace := by
  rcases h with ⟨rfl, -⟩ | ⟨rfl, -⟩ <;> decide

theorem ne_symbol (h : Parenthesis k c) : k ≠ .symbol := by
  rcases h with ⟨rfl, -⟩ | ⟨rfl, -⟩ <;> decide

theorem matches_singleton (h : Parenthesis k c) : k.Matches [c] := by
  rcases h with ⟨rfl, rfl⟩ | ⟨rfl, rfl⟩ <;> rfl

theorem not_extends (h : Parenthesis k c) : ¬k.Extends text after := by
  rcases h with ⟨rfl, rfl⟩ | ⟨rfl, rfl⟩ <;> exact id

theorem not_extends_cons (h : Parenthesis k c) (hw : k' ≠ .whitespace) (hs : k' ≠ .symbol) :
    ¬k'.Extends text (c :: after) := by
  intro he
  obtain ⟨c', rest, hc, hhead⟩ := he.exists_head hw hs
  cases hc
  rcases h with ⟨-, rfl⟩ | ⟨-, rfl⟩ <;> simp at hhead

theorem eq_of_mem (h : Parenthesis k c) (hw : k' ≠ .whitespace) (hs : k' ≠ .symbol) (hm : k'.Matches text)
    (hc : c ∈ text) : k' = k ∧ text = [c] := by
  have hdigit : ¬c.isDigit = true := by rcases h with ⟨-, rfl⟩ | ⟨-, rfl⟩ <;> decide
  have hpoint : c ≠ '.' := by rcases h with ⟨-, rfl⟩ | ⟨-, rfl⟩ <;> decide
  cases k' with
  | number =>
    rcases hm with hm | ⟨whole, fraction, hwhole, hfraction, rfl⟩
    · exact absurd (hm.2 c hc) hdigit
    · rcases List.mem_append.mp hc with hc | hc
      · exact absurd (hwhole.2 c hc) hdigit
      · rcases List.mem_cons.mp hc with hc | hc
        · exact absurd hc hpoint
        · exact absurd (hfraction.2 c hc) hdigit
  | whitespace => exact absurd rfl hw
  | symbol => exact absurd rfl hs
  | _ =>
    cases hm
    rcases h with ⟨rfl, rfl⟩ | ⟨rfl, rfl⟩ <;> revert hc <;> decide

theorem before_or_eq {cs rest tail : List Char} (h : Parenthesis k c) (hw : k' ≠ .whitespace)
    (hs : k' ≠ .symbol) (hm : k'.Matches text) (hcs : text ++ tail = cs ++ c :: rest) :
    (∃ cs', cs = text ++ cs' ∧ tail = cs' ++ c :: rest) ∨ k' = k ∧ text = [c] ∧ cs = [] ∧ tail = rest := by
  rcases List.append_eq_append_iff.mp hcs with ⟨cs', hcs', htail⟩ | ⟨part, htext, hpart⟩
  · exact .inl ⟨cs', hcs', htail⟩
  · cases part with
    | nil => exact .inl ⟨[], by simp [htext], hpart.symm⟩
    | cons _ part =>
      cases hpart
      obtain ⟨rfl, rfl⟩ := h.eq_of_mem hw hs hm (by simp [htext])
      obtain ⟨rfl, hpart⟩ := List.append_eq_singleton_iff.mp htext.symm |>.resolve_right (by simp)
      cases hpart
      exact .inr ⟨rfl, rfl, rfl, rfl⟩

end Kind.Parenthesis

namespace Splits

variable {before cs cs' after : List Char} {found found' : List Lexeme} {k : Kind} {c : Char} {rest : List Char}

theorem append (h : Splits before cs found (cs' ++ after)) (h' : Splits (before ++ cs) cs' found' after) :
    Splits before (cs ++ cs') (found ++ found') after := by
  generalize htail : cs' ++ after = tail at h
  induction h with
  | nil =>
    rw [List.append_nil] at h'
    exact h'
  | blank hb _ ih =>
    refine .blank hb (ih ?_ htail)
    rw [List.append_assoc]
    exact h'
  | @lexeme before k text cs found _ hw hs hm he _ ih =>
    subst htail
    rw [List.append_assoc, List.cons_append]
    refine .lexeme hw hs hm (by rwa [List.append_assoc]) (ih ?_ rfl)
    rw [List.append_assoc]
    exact h'

theorem exists_moved (h : Splits before cs found after) (before' : List Char) : ∃ found',
    Splits before' cs found' after ∧ found'.map Lexeme.spelling = found.map Lexeme.spelling := by
  induction h generalizing before' with
  | nil => exact ⟨[], .nil, rfl⟩
  | @blank _ c _ _ _ hb _ ih =>
    obtain ⟨found', h, hfound⟩ := ih (before' ++ [c])
    exact ⟨found', .blank hb h, hfound⟩
  | @lexeme _ k text _ _ _ hw hs hm he _ ih =>
    obtain ⟨found', h, hfound⟩ := ih (before' ++ text)
    refine ⟨⟨k, text, before'⟩ :: found', .lexeme hw hs hm he h, ?_⟩
    rw [List.map_cons, List.map_cons, hfound]
    rfl

theorem extend_of_parenthesis (h : Splits before cs found []) (hp : k.Parenthesis c) :
    Splits before cs found (c :: after) := by
  apply h.extend
  intro l hl _
  obtain ⟨hw, hs, -⟩ := h.kind_of_mem (List.mem_of_getLast? hl)
  exact hp.not_extends_cons hw hs

theorem exists_of_parenthesis (h : Splits before cs' found after) (hp : k.Parenthesis c)
    (hcs : cs' = cs ++ c :: rest) : ∃ left right, found = left ++ ⟨k, [c], before ++ cs⟩ :: right ∧
      Splits before cs left [] ∧ Splits (before ++ cs ++ [c]) rest right after := by
  induction h generalizing cs with
  | nil => simp at hcs
  | @blank before b _ _ _ hb h ih =>
    cases cs with
    | nil =>
      cases hcs
      rcases hp with ⟨-, rfl⟩ | ⟨-, rfl⟩ <;> exact absurd hb (by decide)
    | cons _ cs =>
      cases hcs
      obtain ⟨left, right, hfound, hleft, hright⟩ := ih rfl
      simp only [List.append_assoc, List.singleton_append] at hfound hright
      exact ⟨left, right, hfound, .blank hb hleft, by simpa using hright⟩
  | @lexeme before k' text tail found after hw hs hm he h ih =>
    rcases hp.before_or_eq hw hs hm hcs with ⟨cs, rfl, rfl⟩ | ⟨rfl, rfl, rfl, rfl⟩
    · obtain ⟨left, right, rfl, hleft, hright⟩ := ih rfl
      refine ⟨⟨k', text, before⟩ :: left, right, by simp, .lexeme hw hs hm ?_ hleft, by simpa using hright⟩
      rw [List.append_assoc] at he
      rw [List.append_nil]
      exact fun hext => he hext.append
    · exact ⟨[], found, by simp, .nil, by simpa using h⟩

theorem parenthesis_iff (hp : k.Parenthesis c) : Splits before (cs ++ c :: rest) found after ↔
    ∃ left right, found = left ++ ⟨k, [c], before ++ cs⟩ :: right ∧ Splits before cs left [] ∧
      Splits (before ++ cs ++ [c]) rest right after := by
  constructor
  · exact fun h => h.exists_of_parenthesis hp rfl
  · rintro ⟨left, right, rfl, hleft, hright⟩
    have htail : Splits (before ++ cs) ([c] ++ rest) (⟨k, [c], before ++ cs⟩ :: right) after :=
      .lexeme hp.ne_whitespace hp.ne_symbol hp.matches_singleton hp.not_extends hright
    exact (hleft.extend_of_parenthesis hp).append htail

end Splits

end StackCalc
