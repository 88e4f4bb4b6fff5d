import StackCalc.Proofs.Blanks

namespace StackCalc

variable {source source' lexeme : String} {line : Nat} {ts : List Token} {before cs after : List Char}

theorem lineAfter_eq_one (h : '\n' ∉ before) : lineAfter before = 1 := by
  rw [lineAfter, List.count_eq_zero_of_not_mem h]

theorem line_eq_one_of_tokenize (h : tokenize source = .ok ts) (hline : '\n' ∉ source.toList) :
    ∀ t ∈ ts, t.line = 1 := by
  obtain ⟨found, hs, rfl⟩ := exists_splits_of_tokenize h
  intro t ht
  obtain ⟨l, hl, rfl⟩ := List.mem_map.mp ht
  obtain ⟨cs, rest, hbefore, hsource⟩ := hs.place hl
  apply lineAfter_eq_one
  intro hmem
  rw [hbefore, List.nil_append] at hmem
  rw [hsource] at hline
  exact hline (List.mem_append_left _ hmem)

theorem line_eq_one_of_unexpectedSymbol (h : tokenize source = .error (.unexpectedSymbol lexeme line))
    (hline : '\n' ∉ source.toList) : line = 1 := by
  rcases tokenize_cases source with ⟨_, _, hok⟩ | ⟨p, _, _, _, hsource, _, _, herror⟩
  · cases h.symm.trans hok
  · cases h.symm.trans herror
    apply lineAfter_eq_one
    intro hmem
    rw [hsource] at hline
    exact hline (List.mem_append_left _ hmem)

-- On line 1 a token is nothing but its spelling.
theorem eq_map_spelling (h : ∀ t ∈ ts, t.line = 1) :
    ts = (ts.map Token.spelling).map fun spelling => ⟨spelling.1, spelling.2, 1⟩ := by
  rw [List.map_map]
  nth_rewrite 1 [← List.map_id ts]
  apply List.map_congr_left
  intro t ht
  obtain ⟨kind, lexeme, line⟩ := t
  obtain rfl : line = 1 := h _ ht
  rfl

theorem tokenize_eq_of_words (h : Text.words source.toList = Text.words source'.toList)
    (hline : '\n' ∉ source.toList) (hline' : '\n' ∉ source'.toList) : tokenize source' = tokenize source := by
  rcases tokenize_cases_of_words h with ⟨ts, ts', hs, hs', halike⟩ | ⟨lexeme, line, line', hs, hs'⟩
  · rw [hs, hs', eq_map_spelling (line_eq_one_of_tokenize hs hline), halike,
      ← eq_map_spelling (line_eq_one_of_tokenize hs' hline')]
  · rw [hs, hs', line_eq_one_of_unexpectedSymbol hs hline, line_eq_one_of_unexpectedSymbol hs' hline']

theorem tokenize_trim (hline : '\n' ∉ source.toList) : tokenize (Text.trim source) = tokenize source :=
  tokenize_eq_of_words (Text.words_trim source).symm hline fun h => hline (Text.mem_of_mem_trim h)

theorem Splits.blanks {found : List Lexeme} (h : Splits before cs found after) (hfound : found = []) :
    Text.Blanks cs := by
  induction h with
  | nil => exact List.forall_mem_nil _
  | blank hb _ ih => exact List.forall_mem_cons.mpr ⟨hb, ih hfound⟩
  | lexeme => cases hfound

theorem tokenize_eq_nil_iff : tokenize source = .ok [] ↔ Text.trim source = "" := by
  rw [Text.trim_eq_empty_iff]
  constructor
  · intro h
    obtain ⟨found, hs, hfound⟩ := exists_splits_of_tokenize h
    exact hs.blanks (List.map_eq_nil_iff.mp hfound.symm)
  · intro h
    have hsplits : Splits [] (source.toList ++ []) [] [] := .gap h .nil
    rw [List.append_nil] at hsplits
    have ht := tokenize_of_splits hsplits
    rwa [String.ofList_toList] at ht

end StackCalc
