import StackCalc.Proofs.Scanning.Choice

/-!
# Lexemes

A scan splits a text into blanks and lexemes, none of which could be longer, as far as that goes;
what is left over then begins with a character that begins no lexeme. Lines are not a matter of the
splitting: a lexeme knows what stands before it, and a line counter tells the line from that.
-/

namespace StackCalc

structure Lexeme where
  kind : Kind
  text : List Char
  before : List Char

def Lexeme.token (line : List Char → Nat) (l : Lexeme) : Token := ⟨l.kind, .ofList l.text, line l.before⟩

/-- `Splits before cs found after` says that `cs`, where it stands between `before` and `after`, is made
of blanks and of the lexemes `found`. -/
inductive Splits : List Char → List Char → List Lexeme → List Char → Prop where
  | nil {before after} : Splits before [] [] after
  | blank {before c cs found after} : Text.isBlank c = true → Splits (before ++ [c]) cs found after →
    Splits before (c :: cs) found after
  | lexeme {before k text cs found after} : k ≠ .whitespace → k ≠ .symbol → Kind.Matches k text →
    ¬k.Extends text (cs ++ after) → Splits (before ++ text) cs found after →
    Splits before (text ++ cs) (⟨k, text, before⟩ :: found) after

/-- A text that a scan refuses: up to the next blank, and not the beginning of a lexeme. -/
structure Refused (text after : List Char) : Prop where
  ne_nil : text ≠ []
  not_blank : ∀ c ∈ text, Text.isBlank c = false
  blank_after : ∀ c ∈ after.head?, Text.isBlank c = true
  begins : ∀ c ∈ text.head?, c.isDigit = false ∧ c ∉ ['(', ')', '*', '/', '%', '+', '-']

/-- The last of the lexemes is a number without a fraction, and nothing follows it in `cs`. -/
def EndsInWhole (tokens : List Token) (cs : List Char) : Prop :=
  ∃ t ∈ tokens.getLast?, t.kind = .number ∧ '.' ∉ t.lexeme.toList ∧ t.lexeme.toList <:+ cs

namespace Kind

variable {k : Kind} {c : Char} {text cs after : List Char}

theorem next_append {p : Char → Bool} (h : Next p cs) : Next p (cs ++ after) := by
  obtain ⟨c, hc, hp⟩ := h
  exact ⟨c, by simp [Option.mem_def.mp hc], hp⟩

theorem Extends.append (h : k.Extends text cs) : k.Extends text (cs ++ after) := by
  cases k with
  | number =>
    rcases h with h | ⟨hp, rest, rfl, h⟩
    · exact .inl (next_append h)
    · exact .inr ⟨hp, rest ++ after, rfl, next_append h⟩
  | star => exact next_append h
  | whitespace => exact next_append h
  | symbol => exact next_append h
  | _ => exact h

/-- Only of a point more than one character has to be known. -/
theorem Extends.of_append (h : k.Extends text (c :: cs ++ after)) (hc : c ≠ '.') :
    k.Extends text (c :: cs) := by
  have hnext {p : Char → Bool} (h : Next p (c :: cs ++ after)) : Next p (c :: cs) := h
  cases k with
  | number =>
    rcases h with h | ⟨-, rest, hrest, -⟩
    · exact .inl (hnext h)
    · cases hrest
      exact absurd rfl hc
  | star => exact hnext h
  | whitespace => exact hnext h
  | symbol => exact hnext h
  | _ => exact h

theorem Extends.exists_head (hw : k ≠ .whitespace) (hs : k ≠ .symbol) (h : k.Extends text after) :
    ∃ c rest, after = c :: rest ∧ (k = .number ∧ (c.isDigit = true ∨ c = '.') ∨ k = .star ∧ c = '*') := by
  have hnext {p : Char → Bool} (h : Next p after) : ∃ c rest, after = c :: rest ∧ p c = true := by
    obtain ⟨c, hc, hp⟩ := h
    obtain ⟨rest, hrest⟩ := List.head?_eq_some_iff.mp hc
    exact ⟨c, rest, hrest, hp⟩
  cases k with
  | number =>
    rcases h with h | ⟨-, rest, hrest, -⟩
    · obtain ⟨c, rest, hrest, hc⟩ := hnext h
      exact ⟨c, rest, hrest, by simp [hc]⟩
    · exact ⟨'.', rest, hrest, by simp⟩
  | star =>
    obtain ⟨c, rest, hrest, hc⟩ := hnext h
    exact ⟨c, rest, hrest, by simpa using hc⟩
  | whitespace => exact absurd rfl hw
  | symbol => exact absurd rfl hs
  | _ => exact absurd h id

end Kind

theorem Refused.leader_eq {c : Char} {text after : List Char} (h : Refused (c :: text) after) :
    Kind.leader c = .symbol := by
  obtain ⟨hd, hsign⟩ := h.begins c rfl
  have hb := h.not_blank c (List.mem_cons_self ..)
  rw [Kind.leader, if_neg (by simp [hd]), if_neg (by simp [hb])]
  unfold Kind.sign
  split <;> first | rfl | exact absurd (by decide) hsign

theorem refused_of_first? {c : Char} {cs text after : List Char}
    (h : Kind.first? (c :: cs) = some (.symbol, text)) (hcs : c :: cs = text ++ after)
    (he : ¬Kind.symbol.Extends text after) : Refused text after := by
  have hm := (Kind.matches_of_first? h).1
  refine ⟨hm.1, ?_, ?_, ?_⟩
  · exact fun c hc => by simpa using hm.2 c hc
  · intro c hc
    by_contra hb
    exact he ⟨c, hc, by simpa using hb⟩
  · obtain ⟨c', text, rfl⟩ := List.exists_cons_of_ne_nil hm.1
    cases hcs
    have hleader := Kind.leader_of_first?_symbol h
    intro c hc
    cases hc
    constructor
    · by_contra hd
      rw [Kind.leader, if_pos (by simpa using hd)] at hleader
      cases hleader
    · intro hsign
      simp only [List.mem_cons, List.not_mem_nil, or_false] at hsign
      rcases hsign with rfl | rfl | rfl | rfl | rfl | rfl | rfl <;> cases hleader

namespace Splits

variable {before cs after : List Char} {found : List Lexeme} {l : Lexeme} {c : Char}

theorem head_ne_point (h : Splits before (c :: cs) found after) : c ≠ '.' := by
  rintro rfl
  generalize htext : '.' :: cs = text at h
  cases h with
  | nil => cases htext
  | blank hb =>
    cases htext
    exact absurd hb (by decide)
  | @lexeme _ k text _ _ _ hw hs hm =>
    obtain ⟨c, rest, rfl⟩ := List.exists_cons_of_ne_nil hm.ne_nil
    cases htext
    have hleading : Kind.leader '.' = k.leading := hm.leader_eq hs
    cases k <;> cases hleading
    exact hs rfl

theorem eq_nil (h : Splits before [] found after) : found = [] := by
  generalize hcs : ([] : List Char) = cs at h
  cases h with
  | nil => rfl
  | blank => cases hcs
  | lexeme _ _ hm => simp [hm.ne_nil] at hcs

theorem blank_of_no_lexeme (h : Splits before cs [] after) : ∀ c ∈ cs, Text.isBlank c = true := by
  generalize hfound : ([] : List Lexeme) = found at h
  induction h with
  | nil => simp
  | blank hb _ ih => exact List.forall_mem_cons.mpr ⟨hb, ih hfound⟩
  | lexeme => cases hfound

theorem kind_of_mem (h : Splits before cs found after) (hl : l ∈ found) :
    l.kind ≠ .whitespace ∧ l.kind ≠ .symbol ∧ l.kind.Matches l.text := by
  induction h with
  | nil => cases hl
  | blank _ _ ih => exact ih hl
  | lexeme hw hs hm _ _ ih =>
    rcases List.mem_cons.mp hl with rfl | hl
    · exact ⟨hw, hs, hm⟩
    · exact ih hl

theorem place (h : Splits before cs found after) (hl : l ∈ found) :
    ∃ cs' rest, l.before = before ++ cs' ∧ cs = cs' ++ (l.text ++ rest) := by
  induction h with
  | nil => cases hl
  | @blank before c _ _ _ _ _ ih =>
    obtain ⟨cs', rest, hbefore, rfl⟩ := ih hl
    exact ⟨c :: cs', rest, by simpa using hbefore, rfl⟩
  | @lexeme before k text cs _ _ _ _ _ _ _ ih =>
    rcases List.mem_cons.mp hl with rfl | hl
    · exact ⟨[], cs, (List.append_nil _).symm, rfl⟩
    · obtain ⟨cs', rest, hbefore, rfl⟩ := ih hl
      exact ⟨text ++ cs', rest, by simpa using hbefore, (List.append_assoc ..).symm⟩

theorem last (h : Splits before cs found after) (hl : l ∈ found.getLast?) : ∃ gap,
    before ++ cs = l.before ++ l.text ++ gap ∧ (∀ c ∈ gap, Text.isBlank c = true) ∧
      ¬l.kind.Extends l.text (gap ++ after) := by
  induction h with
  | nil => cases hl
  | blank _ _ ih => simpa using ih hl
  | @lexeme before k text cs found after _ _ _ he hcs ih =>
    cases found with
    | nil =>
      cases hl
      exact ⟨cs, by simp, hcs.blank_of_no_lexeme, he⟩
    | cons l' found =>
      rw [List.getLast?_cons_cons] at hl
      simpa using ih hl

theorem cut (h : Splits before cs found after) : Splits before cs found [] := by
  induction h with
  | nil => exact .nil
  | blank hb _ ih => exact .blank hb ih
  | lexeme hw hs hm he _ ih =>
    refine .lexeme hw hs hm ?_ ih
    rw [List.append_nil]
    exact fun h => he h.append

theorem extend (h : Splits before cs found [])
    (hlast : ∀ l ∈ found.getLast?, l.before ++ l.text = before ++ cs → ¬l.kind.Extends l.text after) :
    Splits before cs found after := by
  generalize hnil : ([] : List Char) = after' at h
  induction h with
  | nil => exact .nil
  | blank hb _ ih =>
    refine .blank hb (ih ?_ hnil)
    simpa using hlast
  | @lexeme before k text cs found after' hw hs hm he hcs ih =>
    subst hnil
    refine .lexeme hw hs hm ?_ (ih ?_ rfl)
    · cases cs with
      | nil =>
        obtain rfl := hcs.eq_nil
        exact hlast _ rfl (by simp)
      | cons c cs =>
        intro h
        rw [List.append_nil] at he
        exact he (h.of_append hcs.head_ne_point)
    · intro l hl
      rw [List.append_assoc]
      apply hlast
      cases found with
      | nil => cases hl
      | cons => exact hl

theorem unique {found' : List Lexeme} (h : Splits before cs found after)
    (h' : Splits before cs found' after) : found = found' := by
  induction h generalizing found' with
  | nil => exact h'.eq_nil.symm
  | @blank before c cs _ _ hb _ ih =>
    generalize hcs : c :: cs = cs' at h'
    cases h' with
    | nil => cases hcs
    | blank _ h' =>
      cases hcs
      exact ih h'
    | lexeme hw hs hm =>
      obtain ⟨d, rest, rfl⟩ := List.exists_cons_of_ne_nil hm.ne_nil
      cases hcs
      cases hb.symm.trans (hm.not_blank hw hs _ (List.mem_cons_self ..))
  | @lexeme before k text cs found after hw hs hm he _ ih =>
    generalize hcs : text ++ cs = cs' at h'
    cases h' with
    | nil => exact absurd (List.append_eq_nil_iff.mp hcs).1 hm.ne_nil
    | blank hb =>
      obtain ⟨d, rest, rfl⟩ := List.exists_cons_of_ne_nil hm.ne_nil
      cases hcs
      cases hb.symm.trans (hm.not_blank hw hs _ (List.mem_cons_self ..))
    | lexeme hw' hs' hm' he' h' =>
      -- Both lexemes are what the scanner would find here.
      have hfirst := Kind.first?_of_matches hs hm he
      rw [← List.append_assoc, hcs, List.append_assoc, Kind.first?_of_matches hs' hm' he'] at hfirst
      cases hfirst
      cases List.append_cancel_left hcs
      rw [ih h']

theorem exists_splits (before cs : List Char) : (∃ found, Splits before cs found []) ∨
    ∃ p found text q, cs = p ++ (text ++ q) ∧ Splits before p found (text ++ q) ∧ Refused text q := by
  induction hn : cs.length using Nat.strongRecOn generalizing before cs with
  | _ n ih =>
    subst hn
    cases cs with
    | nil => exact .inl ⟨[], .nil⟩
    | cons c cs =>
      by_cases hb : Text.isBlank c = true
      · rcases ih cs.length (Nat.lt_succ_self _) (before ++ [c]) cs rfl with
          ⟨found, h⟩ | ⟨p, found, text, q, rfl, h, ht⟩
        · exact .inl ⟨found, .blank hb h⟩
        · exact .inr ⟨c :: p, found, text, q, rfl, .blank hb h, ht⟩
      · obtain ⟨k, text, hfirst⟩ := Kind.first?_isSome c cs
        obtain ⟨hm, after, hcs, he⟩ := Kind.matches_of_first? hfirst
        have hpos := List.length_pos_iff.mpr hm.ne_nil
        have hlt : after.length < (c :: cs).length := by
          rw [hcs, List.length_append]
          omega
        by_cases hs : k = .symbol
        · subst hs
          exact .inr ⟨[], [], text, after, hcs, .nil, refused_of_first? hfirst hcs he⟩
        · have hw : k ≠ .whitespace := by
            rintro rfl
            obtain ⟨d, rest, rfl⟩ := List.exists_cons_of_ne_nil hm.1
            cases hcs
            exact hb (hm.2 c (List.mem_cons_self ..))
          rw [hcs]
          rcases ih after.length hlt (before ++ text) after rfl with
            ⟨found, h⟩ | ⟨p, found, text', q, rfl, h, ht⟩
          · rw [← List.append_nil after] at he
            exact .inl ⟨_, .lexeme hw hs hm he h⟩
          · exact .inr ⟨text ++ p, _, text', q, (List.append_assoc ..).symm, .lexeme hw hs hm he h, ht⟩

end Splits

end StackCalc
