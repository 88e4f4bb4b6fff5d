import StackCalc.Proofs.Scanning.Lexemes
import StackCalc.Proofs.Scanning.Lines
import StackCalc.Proofs.Scanning.Recognition

namespace StackCalc

def Reach.lineAt (bytes : ByteArray) (r : Reach) (before : List Char) : Nat :=
  (r.extend bytes (byteLength before)).line

def Reach.furthest (bytes : ByteArray) (r : Reach) (found : List Lexeme) : Reach :=
  found.foldl (fun r l => r.extend bytes (byteLength l.before)) r

namespace Capture

variable {cs text : List Char} {k : Kind}

theorem exists_of_first? (h : Kind.first? cs = some (k, text)) :
    ∃ m, Kind.recognizer.capture? cs = some m ∧ m.text = text ∧ m.captured = [(k, text)] := by
  refine ⟨⟨text, [(k.group, text)]⟩, ?_, rfl, ?_⟩
  · rw [Kind.capture?_recognizer, h]
    rfl
  · cases k <;> rfl

theorem classify_of_captured {m : Capture} (h : m.captured = [(k, text)]) (bytes : ByteArray) (r : Reach)
    (offset : Nat) : m.classify bytes r offset = (.ok (k, text), r) := by
  rw [classify, h]

end Capture

namespace Token

variable {bytes : ByteArray} {r : Reach} {offset : Nat} {k : Kind} {text cs after : List Char} {c : Char}

theorem scan_nil : scan bytes r offset [] = (.ok [], r) := by
  rw [scan]

theorem scan_of_first? (h : Kind.first? (text ++ after) = some (k, text)) :
    scan bytes r offset (text ++ after) =
    if k = .whitespace then scan bytes r (offset + byteLength text) after
    else if k = .symbol then
      (.error (.unexpectedSymbol (.ofList text) (r.extend bytes offset).line), r.extend bytes offset)
    else
      ((scan bytes (r.extend bytes offset) (offset + byteLength text) after).1.map
          (⟨k, .ofList text, (r.extend bytes offset).line⟩ :: ·),
        (scan bytes (r.extend bytes offset) (offset + byteLength text) after).2) := by
  obtain ⟨c, cs, rfl⟩ := List.exists_cons_of_ne_nil (Kind.first?_eq_some_iff.mp h).2.1
  obtain ⟨m, hm, htext, hc⟩ := Capture.exists_of_first? h
  have hdrop : (c :: (cs ++ after)).drop (c :: cs).length = after := List.drop_left
  rw [List.cons_append] at hm ⊢
  rw [scan]
  split
  case h_1 hnone => cases hm.symm.trans hnone
  case h_2 m' hm' =>
    cases hm.symm.trans hm'
    simp only [Capture.classify_of_captured hc, htext, hdrop]
    cases k <;> rfl

theorem scan_lexeme (hw : k ≠ .whitespace) (hs : k ≠ .symbol) (hm : k.Matches text)
    (he : ¬k.Extends text after) :
    scan bytes r offset (text ++ after) =
      ((scan bytes (r.extend bytes offset) (offset + byteLength text) after).1.map
          (⟨k, .ofList text, (r.extend bytes offset).line⟩ :: ·),
        (scan bytes (r.extend bytes offset) (offset + byteLength text) after).2) := by
  rw [scan_of_first? (Kind.first?_of_matches hs hm he), if_neg hw, if_neg hs]

theorem scan_refused (h : Refused text after) : scan bytes r offset (text ++ after) =
    (.error (.unexpectedSymbol (.ofList text) (r.extend bytes offset).line), r.extend bytes offset) := by
  obtain ⟨c, rest, rfl⟩ := List.exists_cons_of_ne_nil h.ne_nil
  have hnext : ¬Next (!Text.isBlank ·) after := by
    rintro ⟨c, hc, hb⟩
    simp [h.blank_after c hc] at hb
  have hall : ∀ d ∈ c :: rest, (!Text.isBlank d) = true := by
    intro d hd
    simp [h.not_blank d hd]
  have htake := (takeWhile_append_after hall hnext).1
  have hfirst : Kind.first? (c :: rest ++ after) = some (.symbol, (c :: rest ++ after).takeWhile _) :=
    Kind.first?_of_symbol h.leader_eq
  rw [htake] at hfirst
  rw [scan_of_first? hfirst]
  rfl

/-- A scan goes over blanks one by one, though it takes all of them in one match. -/
theorem scan_blank (h : Text.isBlank c = true) :
    scan bytes r offset (c :: cs) = scan bytes r (offset + c.utf8Size) cs := by
  have hcs : cs = cs.takeWhile Text.isBlank ++ cs.dropWhile Text.isBlank :=
    List.takeWhile_append_dropWhile.symm
  have hall : ∀ d ∈ cs.takeWhile Text.isBlank, Text.isBlank d = true := fun _ => List.mem_takeWhile_imp
  have hnext := not_next_dropWhile Text.isBlank cs
  generalize cs.takeWhile Text.isBlank = gap at hcs hall
  generalize cs.dropWhile Text.isBlank = after at hcs hnext
  subst hcs
  have hscan (text : List Char) (offset : Nat) (hne : text ≠ []) (ht : ∀ d ∈ text, Text.isBlank d = true) :
      scan bytes r offset (text ++ after) = scan bytes r (offset + byteLength text) after := by
    have hm : Kind.whitespace.Matches text := ⟨hne, ht⟩
    rw [scan_of_first? (Kind.first?_of_matches (by decide) hm hnext), if_pos rfl]
  have hall' : ∀ d ∈ c :: gap, Text.isBlank d = true := List.forall_mem_cons.mpr ⟨h, hall⟩
  rw [← List.cons_append, hscan (c :: gap) offset (List.cons_ne_nil c gap) hall']
  by_cases hgap : gap = []
  · subst hgap
    rfl
  · rw [hscan gap _ hgap hall, Nat.add_assoc]
    rfl

end Token

namespace Reach

variable {bytes : ByteArray} {r : Reach} {before cs after : List Char} {found : List Lexeme}

theorem furthest_extend {n : Nat} (h : ∀ l ∈ found, byteLength l.before ≤ n) :
    (r.furthest bytes found).extend bytes n = r.extend bytes n := by
  induction found generalizing r with
  | nil => rfl
  | cons l found ih =>
    obtain ⟨hl, hfound⟩ := List.forall_mem_cons.mp h
    exact (ih hfound).trans (extend_extend hl)

theorem furthest_extend_append (h : Splits before cs found after) :
    (r.furthest bytes found).extend bytes (byteLength (before ++ cs)) = r.extend bytes (byteLength (before ++ cs)) := by
  apply furthest_extend
  intro l hl
  obtain ⟨cs', rest, hbefore, rfl⟩ := h.place hl
  simp only [hbefore, byteLength_append]
  omega

theorem furthest_lineAt (h : Splits before cs found after) :
    (r.furthest bytes found).lineAt bytes (before ++ cs) = r.lineAt bytes (before ++ cs) := by
  rw [lineAt, furthest_extend_append h, lineAt]

theorem map_token_extend (h : Splits before cs found after) {n : Nat} (hn : n ≤ byteLength before) :
    found.map (·.token ((r.extend bytes n).lineAt bytes)) = found.map (·.token (r.lineAt bytes)) := by
  apply List.map_congr_left
  intro l hl
  obtain ⟨cs', rest, hbefore, -⟩ := h.place hl
  have hle : n ≤ byteLength l.before := by
    rw [hbefore, byteLength_append]
    omega
  rw [Lexeme.token, Lexeme.token, lineAt, extend_extend hle, lineAt]

end Reach

namespace Token

variable {bytes : ByteArray} {r : Reach} {before cs after : List Char} {found : List Lexeme}

theorem scan_splits (h : Splits before cs found after) : scan bytes r (byteLength before) (cs ++ after) =
    ((scan bytes (r.furthest bytes found) (byteLength (before ++ cs)) after).1.map
        (found.map (·.token (r.lineAt bytes)) ++ ·),
      (scan bytes (r.furthest bytes found) (byteLength (before ++ cs)) after).2) := by
  induction h generalizing r with
  | @nil before after =>
    rw [List.append_nil]
    change _ = ((scan bytes r (byteLength before) after).1.map id, (scan bytes r (byteLength before) after).2)
    rw [Except.map_id]
    rfl
  | @blank before c cs found after hb _ ih =>
    have hlength : byteLength before + c.utf8Size = byteLength (before ++ [c]) :=
      (byteLength_append before [c]).symm
    rw [List.cons_append, scan_blank hb, hlength, ih, List.append_assoc]
    rfl
  | @lexeme before k text cs found after hw hs hm he hcs ih =>
    have hlength : byteLength before + byteLength text = byteLength (before ++ text) :=
      (byteLength_append before text).symm
    have hle : byteLength before ≤ byteLength (before ++ text) := by omega
    have hfurthest : r.furthest bytes (⟨k, text, before⟩ :: found) =
        (r.extend bytes (byteLength before)).furthest bytes found := rfl
    rw [List.append_assoc, scan_lexeme hw hs hm he, hlength, ih, Reach.map_token_extend hcs hle,
      List.append_assoc, hfurthest]
    generalize scan bytes _ _ after = rest
    obtain ⟨_ | tokens, furthest⟩ := rest <;> rfl

theorem scan_all (h : Splits before cs found []) : scan bytes r (byteLength before) cs =
    (.ok (found.map (·.token (r.lineAt bytes))), r.furthest bytes found) := by
  have hscan : scan bytes r (byteLength before) (cs ++ []) = _ := scan_splits h
  rw [scan_nil, List.append_nil] at hscan
  rw [hscan]
  simp [Except.map]

theorem scan_until_refused {text : List Char} (h : Splits before cs found (text ++ after))
    (ht : Refused text after) :
    scan bytes r (byteLength before) (cs ++ (text ++ after)) =
      (.error (.unexpectedSymbol (.ofList text) (r.lineAt bytes (before ++ cs))),
        (r.furthest bytes found).extend bytes (byteLength (before ++ cs))) := by
  rw [scan_splits h, scan_refused ht, ← Reach.furthest_lineAt h]
  rfl

end Token

end StackCalc
