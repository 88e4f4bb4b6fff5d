import StackCalc.Compiler
import StackCalc.Proofs.Scanning.Tokens

/-!
# Scanning again

A scanner counts lines up to the last token that it has found, or up to the text that it has refused, and does
not go back. The first scan of a text finds each token on its own line, and all later ones find all tokens on
the last of these lines.
-/

namespace StackCalc

namespace Reach

variable {bytes : ByteArray} {r : Reach} {n : Nat} {before : List Char}

def Counts (bytes : ByteArray) (r : Reach) : Prop := r.line = 1 + lineFeeds bytes 0 r.offset

theorem counts_zero (bytes : ByteArray) : ({} : Reach).Counts bytes := by
  simp [Counts, lineFeeds_self]

theorem extend_cases (bytes : ByteArray) (r : Reach) (n : Nat) :
    min n bytes.size ≤ r.offset ∧ r.extend bytes n = r ∨
    r.offset < min n bytes.size ∧ r.extend bytes n =
      ⟨min n bytes.size, r.line + lineFeeds bytes r.offset (min n bytes.size)⟩ := by
  by_cases h : r.offset < min n bytes.size
  · exact .inr ⟨h, if_pos h⟩
  · exact .inl ⟨Nat.not_lt.mp h, if_neg h⟩

theorem Counts.extend (h : r.Counts bytes) (n : Nat) : (r.extend bytes n).Counts bytes := by
  rcases extend_cases bytes r n with ⟨-, hr⟩ | ⟨hlt, hr⟩
  · rwa [hr]
  · rw [Counts] at h
    rw [hr, Counts, h, lineFeeds_add (Nat.zero_le r.offset) (Nat.le_of_lt hlt), Nat.add_assoc]

theorem offset_le_extend (bytes : ByteArray) (r : Reach) (n : Nat) : r.offset ≤ (r.extend bytes n).offset := by
  rcases extend_cases bytes r n with ⟨-, hr⟩ | ⟨hlt, hr⟩
  · rw [hr]
  · rw [hr]
    exact Nat.le_of_lt hlt

theorem le_offset_extend (h : n ≤ bytes.size) : n ≤ (r.extend bytes n).offset := by
  rcases extend_cases bytes r n with ⟨hle, hr⟩ | ⟨-, hr⟩
  · rw [hr]
    omega
  · simp only [hr]
    omega

theorem extend_of_le (h : n ≤ r.offset) : r.extend bytes n = r := by
  apply if_neg
  omega

theorem lineAt_of_le (h : byteLength before ≤ r.offset) : r.lineAt bytes before = r.line := by
  rw [lineAt, extend_of_le h]

theorem furthest_of_le {found : List Lexeme} (h : ∀ l ∈ found, byteLength l.before ≤ r.offset) :
    r.furthest bytes found = r := by
  induction found with
  | nil => rfl
  | cons l found ih =>
    obtain ⟨hl, hfound⟩ := List.forall_mem_cons.mp h
    rw [furthest, List.foldl_cons, extend_of_le hl]
    exact ih hfound

end Reach

namespace Splits

variable {before cs after : List Char} {found : List Lexeme} {l : Lexeme}

theorem ordered (h : Splits before cs found after) : found.Pairwise fun l l' => l.before <+: l'.before := by
  induction h with
  | nil => exact .nil
  | blank _ _ ih => exact ih
  | @lexeme before k text cs found after _ _ _ _ hcs ih =>
    refine .cons ?_ ih
    intro l hl
    obtain ⟨cs', rest, hbefore, -⟩ := hcs.place hl
    simp [hbefore]

theorem furthest_last (h : Splits before cs found after) (hl : l ∈ found.getLast?) (bytes : ByteArray) (r : Reach) :
    r.furthest bytes found = r.extend bytes (byteLength l.before) ∧
      ∀ l' ∈ found, byteLength l'.before ≤ byteLength l.before := by
  obtain ⟨earlier, rfl⟩ := List.getLast?_eq_some_iff.mp hl
  have hle : ∀ l' ∈ earlier, byteLength l'.before ≤ byteLength l.before := by
    intro l' hl'
    obtain ⟨part, hpart⟩ := (List.pairwise_append.mp h.ordered).2.2 l' hl' l (List.mem_singleton_self l)
    rw [← hpart, byteLength_append]
    omega
  constructor
  · rw [Reach.furthest, List.foldl_append]
    exact Reach.furthest_extend hle
  · simpa [or_imp, forall_and] using hle

end Splits

namespace Scanner

def after (s : Scanner) : Nat → Scanner
  | 0 => s
  | n + 1 => (s.after n).scan.2

def advance (s : Scanner) (n : Nat) : Scanner := { s with reach := s.reach.extend s.source.toByteArray n }

def onLastLine (tokens : List Token) : List Token :=
  tokens.map fun t => { t with line := Compiler.lastLineOf tokens }

variable {s : Scanner} {p q text : List Char} {found : List Lexeme} {l : Lexeme} {n : Nat}

theorem advance_of_le (h : n ≤ s.reach.offset) : s.advance n = s := by
  rw [advance, Reach.extend_of_le h]

theorem scan_of_splits (h : Splits [] s.source.toList found []) : s.scan =
    (.ok (found.map (·.token (s.reach.lineAt s.source.toByteArray))),
      { s with reach := s.reach.furthest s.source.toByteArray found }) := by
  have hscan : Token.scan s.source.toByteArray s.reach 0 s.source.toList = _ := Token.scan_all h
  rw [scan, hscan]

theorem scan_of_last (h : Splits [] s.source.toList found []) (hl : l ∈ found.getLast?) : s.scan =
    (.ok (found.map (·.token (s.reach.lineAt s.source.toByteArray))), s.advance (byteLength l.before)) := by
  rw [scan_of_splits h, (h.furthest_last hl _ _).1]
  rfl

theorem scan_of_refused (hsource : s.source.toList = p ++ (text ++ q)) (h : Splits [] p found (text ++ q))
    (ht : Refused text q) : s.scan =
    (.error (.unexpectedSymbol (.ofList text) (s.reach.lineAt s.source.toByteArray p)), s.advance (byteLength p)) := by
  have hscan : Token.scan s.source.toByteArray s.reach 0 (p ++ (text ++ q)) = _ := Token.scan_until_refused h ht
  rw [Reach.furthest_extend_append h, List.nil_append] at hscan
  rw [scan, hsource, hscan]
  rfl

theorem scan_of_ahead (h : Splits [] s.source.toList found [])
    (hahead : ∀ l ∈ found, byteLength l.before ≤ s.reach.offset) :
    s.scan = (.ok (found.map (·.token fun _ => s.reach.line)), s) := by
  have hlines : found.map (·.token (s.reach.lineAt s.source.toByteArray)) =
      found.map (·.token fun _ => s.reach.line) := by
    apply List.map_congr_left
    intro l hl
    rw [Lexeme.token, Lexeme.token, Reach.lineAt_of_le (hahead l hl)]
  rw [scan_of_splits h, hlines, Reach.furthest_of_le hahead]

theorem byteLength_le_size {source : String} {cs rest : List Char} (h : source.toList = cs ++ rest) :
    byteLength cs ≤ source.toByteArray.size := by
  rw [← String.ofList_toList (s := source), String.toByteArray_ofList, size_utf8Encode, h, byteLength_append]
  omega

theorem byteLength_le_advance {cs rest : List Char} (h : s.source.toList = cs ++ rest) :
    byteLength cs ≤ (s.advance (byteLength cs)).reach.offset := by
  apply Reach.le_offset_extend
  exact byteLength_le_size h

theorem onLastLine_map (hl : l ∈ found.getLast?) (line : List Char → Nat) :
    onLastLine (found.map (·.token line)) = found.map (·.token fun _ => line l.before) := by
  have hlast : Compiler.lastLineOf (found.map (·.token line)) = line l.before := by
    simp [Compiler.lastLineOf, Option.mem_def.mp hl, Lexeme.token]
  rw [onLastLine, hlast, List.map_map]
  rfl

theorem scan_scan_of_last (h : Splits [] s.source.toList found []) (hl : l ∈ found.getLast?) :
    s.scan.2.scan = (s.scan.1.map onLastLine, s.scan.2) := by
  obtain ⟨cs, rest, hbefore, hcs⟩ := h.place (List.mem_of_getLast? hl)
  rw [List.nil_append] at hbefore
  rw [← hbefore] at hcs
  have hoffset := byteLength_le_advance hcs
  have hahead : ∀ l' ∈ found, byteLength l'.before ≤ (s.advance (byteLength l.before)).reach.offset := by
    intro l' hl'
    exact ((h.furthest_last hl s.source.toByteArray s.reach).2 l' hl').trans hoffset
  have hagain := scan_of_ahead (s := s.advance (byteLength l.before)) h hahead
  rw [scan_of_last h hl, hagain, Except.map, onLastLine_map hl]
  rfl

theorem scan_scan_of_refused (hsource : s.source.toList = p ++ (text ++ q)) (h : Splits [] p found (text ++ q))
    (ht : Refused text q) : s.scan.2.scan = (s.scan.1.map onLastLine, s.scan.2) := by
  have hoffset := byteLength_le_advance hsource
  have hagain := scan_of_refused (s := s.advance (byteLength p)) hsource h ht
  rw [scan_of_refused hsource h ht, hagain, advance_of_le hoffset, Reach.lineAt_of_le hoffset]
  rfl

theorem scan_scan (s : Scanner) : s.scan.2.scan = (s.scan.1.map onLastLine, s.scan.2) := by
  rcases Splits.exists_splits [] s.source.toList with ⟨found, h⟩ | ⟨p, found, text, q, hsource, h, ht⟩
  · cases hl : found.getLast? with
    | none =>
      rw [List.getLast?_eq_none_iff.mp hl] at h
      rw [scan_of_splits h]
      exact scan_of_splits h
    | some l => exact scan_scan_of_last h hl
  · exact scan_scan_of_refused hsource h ht

theorem after_succ (s : Scanner) (n : Nat) : s.after (n + 1) = s.scan.2 := by
  induction n with
  | zero => rfl
  | succ n ih => rw [after, ih, scan_scan]

theorem exists_advance (s : Scanner) : ∃ n, s.scan.2 = s.advance n := by
  rcases Splits.exists_splits [] s.source.toList with ⟨found, h⟩ | ⟨p, found, text, q, hsource, h, ht⟩
  · cases hl : found.getLast? with
    | none =>
      rw [scan_of_splits h, List.getLast?_eq_none_iff.mp hl]
      exact ⟨0, (advance_of_le (Nat.zero_le _)).symm⟩
    | some l =>
      rw [scan_of_last h hl]
      exact ⟨_, rfl⟩
  · rw [scan_of_refused hsource h ht]
    exact ⟨_, rfl⟩

theorem offset_le_scan (s : Scanner) : s.reach.offset ≤ s.scan.2.reach.offset := by
  obtain ⟨n, hn⟩ := s.exists_advance
  rw [hn]
  apply Reach.offset_le_extend

theorem counts_after (source : String) (n : Nat) : (after { source } n).reach.Counts source.toByteArray := by
  have hzero := Reach.counts_zero source.toByteArray
  cases n with
  | zero => exact hzero
  | succ n =>
    obtain ⟨k, hk⟩ := exists_advance { source }
    rw [after_succ, hk]
    exact hzero.extend k

theorem lines_ordered (h : Splits [] p found q) :
    found.Pairwise fun l l' => lineAfter l.before ≤ lineAfter l'.before := by
  apply h.ordered.imp
  rintro l l' ⟨part, hpart⟩
  simp only [lineAfter, ← hpart, List.count_append]
  omega

theorem scans_lines (source : String) :
    let s : Scanner := { source }
    (∀ n, (s.after n).reach.line = 1 + Reach.lineFeeds source.toByteArray 0 (s.after n).reach.offset ∧
      (s.after n).reach.offset ≤ (s.after (n + 1)).reach.offset) ∧
    ((∃ found, Splits [] source.toList found [] ∧ s.scan.1 = .ok (found.map (·.token lineAfter)) ∧
        found.Pairwise fun l l' => lineAfter l.before ≤ lineAfter l'.before) ∨
      ∃ p found text q, source.toList = p ++ (text ++ q) ∧ Splits [] p found (text ++ q) ∧ Refused text q ∧
        s.scan.1 = .error (.unexpectedSymbol (.ofList text) (lineAfter p))) ∧
    ∀ n, (s.after (n + 1)).scan.1 = s.scan.1.map onLastLine := by
  intro s
  refine ⟨?_, ?_, ?_⟩
  · intro n
    exact ⟨counts_after source n, (s.after n).offset_le_scan⟩
  · rcases tokenize_cases source with ⟨found, h, hscan⟩ | hrefused
    · exact .inl ⟨found, h, hscan, lines_ordered h⟩
    · exact .inr hrefused
  · intro n
    rw [after_succ, scan_scan]

example : (after { source := "1\n+\n\n2\n" } 1).scan.1 =
    .ok [⟨.number, "1", 4⟩, ⟨.plus, "+", 4⟩, ⟨.number, "2", 4⟩] := by
  decide +kernel

end Scanner

end StackCalc
