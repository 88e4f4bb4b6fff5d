import StackCalc.Proofs.Scanning.Parentheses
import StackCalc.Proofs.Scanning.Words

namespace StackCalc

open Text (Aligned Blanks Ends lead)

variable {p : Char → Bool} {k : Kind} {c : Char} {before cs cs' text after : List Char} {found : List Lexeme}

theorem next_lead_iff (hp : ∀ c, p c = true → Text.isBlank c = false) : Next p (lead cs) ↔ Next p cs := by
  cases cs with
  | nil => rfl
  | cons c cs =>
    by_cases hc : Text.isBlank c = true
    · have hnot : ¬p c = true := fun hpc => by simp [hp c hpc] at hc
      simp [Text.lead_cons_blank hc, Next, hnot]
    · simp [Text.lead_cons (eq_false_of_ne_true hc), Next]

theorem next_of_aligned (hp : ∀ c, p c = true → Text.isBlank c = false) (h : Aligned cs cs') (hn : Next p cs') :
    Next p cs := by
  rw [← next_lead_iff hp, h.lead]
  exact (next_lead_iff hp).mpr hn

namespace Kind

theorem Extends.aligned (hw : k ≠ .whitespace) (hs : k ≠ .symbol) (h : Aligned cs cs') (he : k.Extends text cs') :
    k.Extends text cs := by
  cases k with
  | number =>
    rcases he with hdigit | ⟨hpoint, rest', rfl, hdigit⟩
    · exact .inl (next_of_aligned (fun _ => not_isBlank_of_isDigit) h hdigit)
    · obtain ⟨rest, rfl, hrest⟩ := h.exists_cons (by decide)
      exact .inr ⟨hpoint, rest, rfl, next_of_aligned (fun _ => not_isBlank_of_isDigit) hrest hdigit⟩
  | star =>
    apply next_of_aligned ?_ h he
    intro c hc
    rw [of_decide_eq_true hc]
    decide
  | whitespace => exact absurd rfl hw
  | symbol => exact absurd rfl hs
  | _ => exact he

end Kind

namespace Splits

theorem gap {gap : List Char} (hgap : Blanks gap) (h : Splits (before ++ gap) cs found after) :
    Splits before (gap ++ cs) found after := by
  induction gap generalizing before with
  | nil => rwa [List.append_nil] at h
  | cons c gap ih =>
    obtain ⟨hc, hgap⟩ := List.forall_mem_cons.mp hgap
    apply Splits.blank hc
    apply ih hgap
    rwa [List.append_assoc]

theorem append_gap {gap : List Char} (hgap : Blanks gap) (h : Splits before cs found (gap ++ after)) :
    Splits before (cs ++ gap) found after := by
  have hsplits : Splits (before ++ cs) (gap ++ []) [] after := .gap hgap .nil
  rw [List.append_nil] at hsplits
  have happend := h.append hsplits
  rwa [List.append_nil] at happend

theorem exists_respaced (h : Splits before cs found after) (hwords : Text.words (cs ++ after) = Text.words cs')
    (before' : List Char) : ∃ p found' after', cs' = p ++ after' ∧ Splits before' p found' after' ∧
      found'.map Lexeme.spelling = found.map Lexeme.spelling ∧ Text.words after = Text.words after' := by
  induction h generalizing cs' before' with
  | nil => exact ⟨[], [], cs', rfl, .nil, rfl, hwords⟩
  | blank hb _ ih =>
    rw [List.cons_append, Text.words_cons_blank hb] at hwords
    exact ih hwords before'
  | @lexeme _ k text cs found after hw hs hm he _ ih =>
    rw [List.append_assoc] at hwords
    -- The other text begins with the same lexeme, with blanks in front of it at most.
    obtain ⟨gap, rest, rfl, hgap, haligned⟩ := Text.exists_of_words_eq hm.ne_nil (hm.not_blank hw hs) hwords
    obtain ⟨p, found', after', rfl, hsplits, hspelling, hafter⟩ :=
      ih haligned.words_eq (before' ++ gap ++ text)
    have hend : ¬k.Extends text (p ++ after') := fun hext => he (hext.aligned hw hs haligned)
    refine ⟨gap ++ (text ++ p), ⟨k, text, before' ++ gap⟩ :: found', after', by simp,
      .gap hgap (.lexeme hw hs hm hend hsplits), ?_, hafter⟩
    rw [List.map_cons, List.map_cons, hspelling]
    rfl

theorem exists_respaced_all (h : Splits before cs found []) (hwords : Text.words cs = Text.words cs')
    (before' : List Char) : ∃ found', Splits before' cs' found' [] ∧
      found'.map Lexeme.spelling = found.map Lexeme.spelling := by
  rw [← List.append_nil cs] at hwords
  obtain ⟨p, found', gap, rfl, hsplits, hspelling, hgap⟩ := h.exists_respaced hwords before'
  rw [← List.append_nil gap] at hsplits
  exact ⟨found', hsplits.append_gap (Text.blanks_of_words hgap.symm), hspelling⟩

theorem exists_respaced_refused (h : Splits before cs found (text ++ after)) (ht : Refused text after)
    (hwords : Text.words (cs ++ (text ++ after)) = Text.words cs') (before' : List Char) :
    ∃ p found' after', cs' = p ++ (text ++ after') ∧ Splits before' p found' (text ++ after') ∧
      Refused text after' ∧ found'.map Lexeme.spelling = found.map Lexeme.spelling := by
  obtain ⟨p, found', rest, rfl, hsplits, hspelling, hrest⟩ := h.exists_respaced hwords before'
  obtain ⟨gap, after', rfl, hgap, haligned⟩ := Text.exists_of_words_eq ht.ne_nil ht.not_blank hrest
  have hrefused : Refused text after' := ⟨ht.ne_nil, ht.not_blank, haligned.ends ht.blank_after, ht.begins⟩
  exact ⟨p ++ gap, found', after', by simp, hsplits.append_gap hgap, hrefused, hspelling⟩

end Splits

end StackCalc
