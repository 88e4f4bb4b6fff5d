import StackCalc.Proofs.Scanning.Scans

/-!
# Tokens of a source text

The tokens of a source text are its lexemes, each on the line that follows from the line feeds in
front of it; and an error names the first text that a scan refuses.
-/

namespace StackCalc

def lineAfter (before : List Char) : Nat := 1 + before.count '\n'

theorem Reach.lineAt_text (before after : List Char) :
    ({} : Reach).lineAt (before ++ after).utf8Encode before = lineAfter before :=
  Reach.extend_line_text before after

section Tokenize

variable {source p q text : List Char} {found : List Lexeme}

theorem tokenize_ofList (cs : List Char) :
    tokenize (.ofList cs) = (Token.scan cs.utf8Encode {} (byteLength []) cs).1 := by
  rw [tokenize, Scanner.scan, String.toList_ofList, String.toByteArray_ofList]
  rfl

theorem tokenize_of_splits (h : Splits [] source found []) :
    tokenize (.ofList source) = .ok (found.map (·.token lineAfter)) := by
  have hlines : found.map (·.token (({} : Reach).lineAt source.utf8Encode)) =
      found.map (·.token lineAfter) := by
    apply List.map_congr_left
    intro l hl
    obtain ⟨cs, rest, hbefore, hsource⟩ := h.place hl
    have hsource : source = l.before ++ (l.text ++ rest) := by
      rw [hbefore]
      exact hsource
    rw [Lexeme.token, Lexeme.token, hsource, Reach.lineAt_text]
  rw [tokenize_ofList, Token.scan_all h, hlines]

theorem tokenize_of_refused (h : Splits [] p found (text ++ q)) (ht : Refused text q) :
    tokenize (.ofList (p ++ (text ++ q))) = .error (.unexpectedSymbol (.ofList text) (lineAfter p)) := by
  rw [tokenize_ofList, Token.scan_until_refused h ht, List.nil_append, Reach.lineAt_text]

theorem tokenize_cases (source : String) :
    (∃ found, Splits [] source.toList found [] ∧ tokenize source = .ok (found.map (·.token lineAfter))) ∨
      ∃ p found text q, source.toList = p ++ (text ++ q) ∧ Splits [] p found (text ++ q) ∧ Refused text q ∧
        tokenize source = .error (.unexpectedSymbol (.ofList text) (lineAfter p)) := by
  obtain ⟨cs, rfl⟩ : ∃ cs, source = .ofList cs := ⟨source.toList, String.ofList_toList.symm⟩
  rw [String.toList_ofList]
  rcases Splits.exists_splits [] cs with ⟨found, h⟩ | ⟨p, found, text, q, rfl, h, ht⟩
  · exact .inl ⟨found, h, tokenize_of_splits h⟩
  · exact .inr ⟨p, found, text, q, rfl, h, ht, tokenize_of_refused h ht⟩

theorem exists_splits_of_tokenize {source : String} {tokens : List Token} (h : tokenize source = .ok tokens) :
    ∃ found, Splits [] source.toList found [] ∧ tokens = found.map (·.token lineAfter) := by
  rcases tokenize_cases source with ⟨found, hs, hok⟩ | ⟨_, _, _, _, _, _, _, herror⟩
  · exact ⟨found, hs, Except.ok.inj (h.symm.trans hok)⟩
  · cases h.symm.trans herror

end Tokenize

section Refusal

variable {p q text : List Char} {found : List Lexeme} {line : List Char → Nat}

theorem not_endsInWhole (h : Splits [] p found (text ++ q)) :
    ¬(EndsInWhole (found.map (·.token line)) p ∧ ∃ c rest, text = '.' :: c :: rest ∧ c.isDigit = true) := by
  rintro ⟨⟨t, ht, hkind, hpoint, hsuffix⟩, c, rest, rfl, hc⟩
  rw [List.getLast?_map] at ht
  obtain ⟨l, hl, rfl⟩ := Option.map_eq_some_iff.mp ht
  simp only [Lexeme.token, String.toList_ofList] at hkind hpoint hsuffix
  obtain ⟨-, -, hm⟩ := h.kind_of_mem (List.mem_of_getLast? hl)
  obtain ⟨gap, hp, hblank, he⟩ := h.last hl
  rw [hkind] at hm he
  have hdigits : Digits l.text := by
    rcases hm with hm | ⟨whole, fraction, -, -, htext⟩
    · exact hm
    · simp [htext] at hpoint
  rcases List.eq_nil_or_concat gap with rfl | ⟨gap, b, rfl⟩
  · exact he (.inr ⟨hpoint, c :: (rest ++ q), rfl, c, rfl, hc⟩)
  · -- A blank after the number would be the last character of the number.
    obtain ⟨front, hfront⟩ := hsuffix
    rw [List.nil_append] at hp
    rw [hp, List.concat_eq_append, ← List.append_assoc] at hfront
    have hlast := congrArg List.getLast? hfront
    rw [List.getLast?_append_of_ne_nil _ hdigits.1, List.getLast?_concat] at hlast
    have hdigit := hdigits.2 b (List.mem_of_getLast? hlast)
    exact Kind.not_isDigit_of_isBlank (hblank b (by simp)) hdigit

theorem splits_of_not_endsInWhole (h : Splits [] p found []) (ht : Refused text q)
    (hp : ¬(EndsInWhole (found.map (·.token line)) p ∧
      ∃ c rest, text = '.' :: c :: rest ∧ c.isDigit = true)) :
    Splits [] p found (text ++ q) := by
  apply h.extend
  intro l hl hbefore he
  obtain ⟨hw, hs, -⟩ := h.kind_of_mem (List.mem_of_getLast? hl)
  obtain ⟨c, rest, rfl⟩ := List.exists_cons_of_ne_nil ht.ne_nil
  obtain ⟨hdigit, hsign⟩ := ht.begins c rfl
  cases hk : l.kind with
  | number =>
    rw [hk] at he
    rcases he with ⟨d, hd, hdd⟩ | ⟨hpoint, after, hafter, d, hd, hdd⟩
    · cases hd
      rw [hdigit] at hdd
      cases hdd
    · cases hafter
      cases rest with
      | nil => exact Kind.not_isDigit_of_isBlank (ht.blank_after d hd) hdd
      | cons c' rest =>
        cases hd
        refine hp ⟨⟨l.token line, ?_, hk, ?_, ?_⟩, d, rest, rfl, hdd⟩
        · simp [List.getLast?_map, Option.mem_def.mp hl]
        · simpa [Lexeme.token] using hpoint
        · exact ⟨l.before, by simpa [Lexeme.token] using hbefore⟩
  | star =>
    rw [hk] at he
    obtain ⟨d, hd, hstar⟩ := he
    cases hd
    exact hsign (by simp [of_decide_eq_true hstar])
  | whitespace => exact hw hk
  | symbol => exact hs hk
  | _ =>
    rw [hk] at he
    exact he

end Refusal

theorem tokenize_eq_iff (source : String) :
    (∀ tokens, tokenize source = .ok tokens ↔
      ∃ found, Splits [] source.toList found [] ∧ tokens = found.map (·.token lineAfter)) ∧
    (∀ found found', Splits [] source.toList found [] → Splits [] source.toList found' [] → found = found') ∧
    ∀ e, tokenize source = .error e ↔ ∃ p text q, source.toList = p ++ (text ++ q) ∧ Refused text q ∧
      (∃ tokens, tokenize (.ofList p) = .ok tokens ∧
        ¬(EndsInWhole tokens p ∧ ∃ c rest, text = '.' :: c :: rest ∧ c.isDigit = true)) ∧
      e = .unexpectedSymbol (.ofList text) (lineAfter p) := by
  have hsource : String.ofList source.toList = source := String.ofList_toList
  refine ⟨fun tokens => ⟨?_, ?_⟩, fun found found' hs hs' => hs.unique hs', fun e => ⟨?_, ?_⟩⟩
  · intro h
    rcases tokenize_cases source with ⟨found, hs, hok⟩ | ⟨_, _, _, _, _, _, _, herror⟩
    · exact ⟨found, hs, Except.ok.inj (h.symm.trans hok)⟩
    · cases h.symm.trans herror
  · rintro ⟨found, hs, rfl⟩
    rw [← hsource]
    exact tokenize_of_splits hs
  · intro h
    rcases tokenize_cases source with ⟨_, _, hok⟩ | ⟨p, found, text, q, hsplit, hs, ht, herror⟩
    · cases h.symm.trans hok
    · have hp := tokenize_of_splits hs.cut
      exact ⟨p, text, q, hsplit, ht, ⟨_, hp, not_endsInWhole hs⟩, Except.error.inj (h.symm.trans herror)⟩
  · rintro ⟨p, text, q, hsplit, ht, ⟨tokens, hp, hends⟩, rfl⟩
    rw [← hsource, hsplit]
    rcases tokenize_cases (.ofList p) with ⟨found, hs, hok⟩ | ⟨_, _, _, _, _, _, _, herror⟩
    · cases hp.symm.trans hok
      rw [String.toList_ofList] at hs
      exact tokenize_of_refused (splits_of_not_endsInWhole hs ht hends) ht
    · cases hp.symm.trans herror

end StackCalc
