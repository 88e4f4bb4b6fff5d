import StackCalc.Proofs.Scanning.Patterns

namespace StackCalc.Text

def words (cs : List Char) : List (List Char) := (cs.splitOnP isBlank).filter (· ≠ [])

def Blanks (cs : List Char) : Prop := ∀ c ∈ cs, isBlank c = true

instance (cs : List Char) : Decidable (Blanks cs) := decidable_of_iff (cs.all isBlank = true) List.all_eq_true

/-- Where the one text has a run of blanks the other has one too, and elsewhere they are the same. -/
inductive Regapped : List Char → List Char → Prop where
  | nil : Regapped [] []
  | char {c cs cs'} : Regapped cs cs' → Regapped (c :: cs) (c :: cs')
  | gap {gap gap' cs cs'} : gap ≠ [] → Blanks gap → gap' ≠ [] → Blanks gap' → Regapped cs cs' →
    Regapped (gap ++ cs) (gap' ++ cs')

/-- At the two ends there may be blanks in the one text and none in the other. -/
inductive Respaced : List Char → List Char → Prop where
  | ends {front inner back front' inner' back'} : Blanks front → Blanks back → Blanks front' → Blanks back' →
    Regapped inner inner' → Respaced (front ++ (inner ++ back)) (front' ++ (inner' ++ back'))

def lead (cs : List Char) : List Char := cs.takeWhile (!isBlank ·)

def afterLead (cs : List Char) : List Char := cs.dropWhile (!isBlank ·)

/-- The same up to the next blank, and the same words after it. -/
structure Aligned (cs cs' : List Char) : Prop where
  lead : lead cs = lead cs'
  words : words (afterLead cs) = words (afterLead cs')

variable {c : Char} {cs cs' gap text after : List Char}

section Blank

theorem words_append_blank (h : isBlank c = true) (cs cs' : List Char) :
    words (cs ++ c :: cs') = words cs ++ words cs' := by
  rw [words, List.splitOnP_append_cons cs cs' h, List.filter_append, words, words]

theorem words_nil : words [] = [] := rfl

theorem words_cons_blank (h : isBlank c = true) (cs : List Char) : words (c :: cs) = words cs := by
  have hwords := words_append_blank h [] cs
  rwa [words_nil, List.nil_append, List.nil_append] at hwords

theorem words_blanks_append (h : Blanks gap) (cs : List Char) : words (gap ++ cs) = words cs := by
  induction gap with
  | nil => rfl
  | cons c gap ih =>
    obtain ⟨hc, hgap⟩ := List.forall_mem_cons.mp h
    rw [List.cons_append, words_cons_blank hc, ih hgap]

theorem words_append_blanks (h : Blanks gap) (cs : List Char) : words (cs ++ gap) = words cs := by
  cases gap with
  | nil => rw [List.append_nil]
  | cons c gap =>
    obtain ⟨hc, hgap⟩ := List.forall_mem_cons.mp h
    have hnone := words_blanks_append hgap []
    rw [List.append_nil, words_nil] at hnone
    rw [words_append_blank hc, hnone, List.append_nil]

end Blank

section Lead

theorem lead_cons_blank (h : isBlank c = true) (cs : List Char) : lead (c :: cs) = [] := by
  simp [lead, h]

theorem lead_cons (h : isBlank c = false) (cs : List Char) : lead (c :: cs) = c :: lead cs := by
  simp [lead, h]

theorem afterLead_cons (h : isBlank c = false) (cs : List Char) : afterLead (c :: cs) = afterLead cs := by
  simp [afterLead, h]

theorem lead_append_afterLead (cs : List Char) : lead cs ++ afterLead cs = cs :=
  List.takeWhile_append_dropWhile

theorem not_blank_of_mem_lead : ∀ c ∈ lead cs, isBlank c = false := by
  intro c hc
  simpa using List.mem_takeWhile_imp hc

def Ends (cs : List Char) : Prop := ∀ c ∈ cs.head?, isBlank c = true

theorem ends_afterLead (cs : List Char) : Ends (afterLead cs) := by
  intro c hc
  by_contra hb
  exact not_next_dropWhile _ cs ⟨c, hc, by simpa using hb⟩

theorem ends_blanks_append (h : Blanks gap) (hne : gap ≠ []) (cs : List Char) : Ends (gap ++ cs) := by
  obtain ⟨b, gap, rfl⟩ := List.exists_cons_of_ne_nil hne
  simpa [Ends] using h b (List.mem_cons_self ..)

theorem lead_append (ht : ∀ c ∈ text, isBlank c = false) (ha : Ends after) :
    lead (text ++ after) = text ∧ afterLead (text ++ after) = after := by
  apply takeWhile_append_after
  · intro c hc
    simp [ht c hc]
  · rintro ⟨c, hc, hb⟩
    simp [ha c hc] at hb

theorem Ends.lead_eq (h : Ends cs) : lead cs = [] ∧ afterLead cs = cs := by
  have hlead : lead ([] ++ cs) = [] ∧ afterLead ([] ++ cs) = cs := lead_append (List.forall_mem_nil _) h
  rwa [List.nil_append] at hlead

theorem words_of_not_blank (hne : text ≠ []) (ht : ∀ c ∈ text, isBlank c = false) : words text = [text] := by
  rw [words, List.splitOnP_eq_singleton ht]
  simp [hne]

theorem words_append (hne : text ≠ []) (ht : ∀ c ∈ text, isBlank c = false) (ha : Ends after) :
    words (text ++ after) = text :: words after := by
  cases after with
  | nil => rw [List.append_nil, words_of_not_blank hne ht, words_nil]
  | cons c after =>
    have hc := ha c rfl
    rw [words_append_blank hc, words_of_not_blank hne ht, words_cons_blank hc, List.singleton_append]

theorem Ends.of_lead (h : lead cs = []) : Ends cs := by
  have hcs := lead_append_afterLead cs
  rw [h, List.nil_append] at hcs
  rw [← hcs]
  exact ends_afterLead cs

end Lead

namespace Aligned

theorem words_eq (h : Aligned cs cs') : Text.words cs = Text.words cs' := by
  have hlead := h.lead
  rw [← lead_append_afterLead cs, ← lead_append_afterLead cs', ← hlead]
  by_cases hne : Text.lead cs = []
  · rw [hne]
    exact h.words
  · rw [words_append hne not_blank_of_mem_lead (ends_afterLead cs),
      words_append hne not_blank_of_mem_lead (ends_afterLead cs'), h.words]

theorem ends (h : Aligned cs cs') (hcs : Ends cs) : Ends cs' := by
  apply Ends.of_lead
  rw [← h.lead]
  exact hcs.lead_eq.1

theorem exists_cons (hc : isBlank c = false) (h : Aligned cs (c :: cs')) :
    ∃ rest, cs = c :: rest ∧ Aligned rest cs' := by
  have hlead := h.lead
  have hwords := h.words
  rw [lead_cons hc] at hlead
  rw [afterLead_cons hc] at hwords
  cases cs with
  | nil => cases hlead
  | cons d rest =>
    by_cases hd : isBlank d = true
    · rw [lead_cons_blank hd] at hlead
      cases hlead
    · have hd := eq_false_of_ne_true hd
      rw [lead_cons hd] at hlead
      rw [afterLead_cons hd] at hwords
      obtain ⟨rfl, hrest⟩ := List.cons.inj hlead
      exact ⟨rest, rfl, hrest, hwords⟩

end Aligned

theorem aligned_of_ends (h : Ends cs) (h' : Ends cs') (hwords : words cs = words cs') : Aligned cs cs' := by
  obtain ⟨hlead, hafter⟩ := h.lead_eq
  obtain ⟨hlead', hafter'⟩ := h'.lead_eq
  exact ⟨hlead.trans hlead'.symm, by rwa [hafter, hafter']⟩

theorem Regapped.aligned (h : Regapped cs cs') : Aligned cs cs' := by
  induction h with
  | nil => exact ⟨rfl, rfl⟩
  | @char c cs cs' _ ih =>
    by_cases hc : isBlank c = true
    · apply aligned_of_ends
      · simpa [Ends] using hc
      · simpa [Ends] using hc
      · rw [words_cons_blank hc, words_cons_blank hc, ih.words_eq]
    · have hc := eq_false_of_ne_true hc
      exact ⟨by rw [lead_cons hc, lead_cons hc, ih.lead],
        by rw [afterLead_cons hc, afterLead_cons hc, ih.words]⟩
  | @gap gap gap' cs cs' hne hb hne' hb' _ ih =>
    apply aligned_of_ends (ends_blanks_append hb hne cs) (ends_blanks_append hb' hne' cs')
    rw [words_blanks_append hb, words_blanks_append hb', ih.words_eq]

theorem Respaced.words_eq (h : Respaced cs cs') : words cs = words cs' := by
  obtain ⟨hfront, hback, hfront', hback', hinner⟩ := h
  rw [words_blanks_append hfront, words_append_blanks hback, words_blanks_append hfront',
    words_append_blanks hback', hinner.aligned.words_eq]

theorem exists_gap (cs : List Char) : ∃ gap rest, cs = gap ++ rest ∧ Blanks gap ∧
    (rest = [] ∨ lead rest ≠ [] ∧ words cs = lead rest :: words (afterLead rest)) := by
  have hcs : cs = cs.takeWhile isBlank ++ cs.dropWhile isBlank := List.takeWhile_append_dropWhile.symm
  have hgap : Blanks (cs.takeWhile isBlank) := fun c hc => List.mem_takeWhile_imp hc
  have hnext := not_next_dropWhile isBlank cs
  generalize cs.takeWhile isBlank = gap at hcs hgap
  generalize cs.dropWhile isBlank = rest at hcs hnext
  refine ⟨gap, rest, hcs, hgap, ?_⟩
  cases rest with
  | nil => exact .inl rfl
  | cons c rest =>
    have hc : isBlank c = false := by
      by_contra hb
      exact hnext ⟨c, rfl, by simpa using hb⟩
    have hne : lead (c :: rest) ≠ [] := by
      rw [lead_cons hc]
      exact List.cons_ne_nil c _
    refine .inr ⟨hne, ?_⟩
    rw [hcs, words_blanks_append hgap, ← words_append hne not_blank_of_mem_lead (ends_afterLead (c :: rest)),
      lead_append_afterLead]

theorem blanks_of_words (h : words cs = []) : Blanks cs := by
  obtain ⟨gap, rest, rfl, hgap, rfl | ⟨-, hwords⟩⟩ := exists_gap cs
  · rwa [List.append_nil]
  · cases h.symm.trans hwords

theorem exists_of_words_eq (hne : text ≠ []) (ht : ∀ c ∈ text, isBlank c = false)
    (h : words (text ++ cs) = words cs') :
    ∃ gap after, cs' = gap ++ (text ++ after) ∧ Blanks gap ∧ Aligned cs after := by
  have hword : words (text ++ cs) = (text ++ lead cs) :: words (afterLead cs) := by
    have hnot : ∀ c ∈ text ++ lead cs, isBlank c = false :=
      List.forall_mem_append.mpr ⟨ht, not_blank_of_mem_lead⟩
    rw [← words_append (by simp [hne]) hnot (ends_afterLead cs), List.append_assoc, lead_append_afterLead]
  obtain ⟨gap, rest, rfl, hgap, rfl | ⟨-, hwords⟩⟩ := exists_gap cs'
  · rw [words_blanks_append hgap] at h
    cases hword.symm.trans h
  · obtain ⟨hlead, hafter⟩ := List.cons.inj (hword.symm.trans (h.trans hwords))
    have hnot : ∀ c ∈ lead cs, isBlank c = false := not_blank_of_mem_lead
    have hend := lead_append hnot (ends_afterLead rest)
    refine ⟨gap, lead cs ++ afterLead rest, ?_, hgap, ⟨hend.1.symm, by rw [hend.2, hafter]⟩⟩
    rw [← List.append_assoc text, hlead, lead_append_afterLead]

section Trim

variable {s : String}

theorem exists_trim (s : String) :
    ∃ front back, s.toList = front ++ ((trim s).toList ++ back) ∧ Blanks front ∧ Blanks back := by
  let rest := s.toList.dropWhile isBlank
  refine ⟨s.toList.takeWhile isBlank, (rest.reverse.takeWhile isBlank).reverse, ?_, ?_, ?_⟩
  · rw [trim, String.toList_ofList, ← List.reverse_append, List.takeWhile_append_dropWhile, List.reverse_reverse,
      List.takeWhile_append_dropWhile]
  · exact fun c hc => List.mem_takeWhile_imp hc
  · exact fun c hc => List.mem_takeWhile_imp (List.mem_reverse.mp hc)

theorem words_trim (s : String) : words (trim s).toList = words s.toList := by
  obtain ⟨front, back, hs, hfront, hback⟩ := exists_trim s
  rw [hs, words_blanks_append hfront, words_append_blanks hback]

theorem mem_of_mem_trim (h : c ∈ (trim s).toList) : c ∈ s.toList := by
  obtain ⟨front, back, hs, -, -⟩ := exists_trim s
  rw [hs]
  exact List.mem_append_right _ (List.mem_append_left _ h)

theorem trim_eq_empty_iff : trim s = "" ↔ Blanks s.toList := by
  constructor
  · intro h
    apply blanks_of_words
    rw [← words_trim, h]
    rfl
  · intro h
    rw [trim, List.dropWhile_eq_nil_iff.mpr h]
    rfl

end Trim

end StackCalc.Text
