import Mathlib.Data.List.TakeWhile
import StackCalc.Text.Lines

namespace StackCalc.Text

/-- A line ends at the next line feed or else with the input. A carriage return in front of the line feed is
dropped, one in front of the end of the input is not, nor is a second one. -/
inductive Lines : List UInt8 → List (List UInt8) → Prop where
  | nil : Lines [] []
  | unended {line : List UInt8} : line ≠ [] → lineFeed ∉ line → Lines line [line]
  | feed {line rest : List UInt8} {lines : List (List UInt8)} : lineFeed ∉ line →
    line.getLast? ≠ some carriageReturn → Lines rest lines → Lines (line ++ lineFeed :: rest) (line :: lines)
  | returnFeed {line rest : List UInt8} {lines : List (List UInt8)} : lineFeed ∉ line → Lines rest lines →
    Lines (line ++ carriageReturn :: lineFeed :: rest) (line :: lines)

variable {bytes line : List UInt8} {lines : List (List UInt8)}

theorem splitLines_of_notMem (h : lineFeed ∉ line) : splitLines line = if line = [] then [] else [line] := by
  have hdrop : line.dropWhile (· != lineFeed) = [] := by
    rw [List.dropWhile_eq_nil_iff]
    exact fun b hb => bne_iff_ne.mpr (ne_of_mem_of_not_mem hb h)
  rw [splitLines]
  split
  · rfl
  · rename_i hcons
    rw [hdrop] at hcons
    cases hcons

theorem splitLines_append_lineFeed (h : lineFeed ∉ line) (rest : List UInt8) :
    splitLines (line ++ lineFeed :: rest) = dropCarriageReturn line :: splitLines rest := by
  have hbytes : ∀ b ∈ line, (b != lineFeed) = true := fun b hb => bne_iff_ne.mpr (ne_of_mem_of_not_mem hb h)
  have hdrop : (line ++ lineFeed :: rest).dropWhile (· != lineFeed) = lineFeed :: rest := by
    rw [List.dropWhile_append_of_pos hbytes]
    simp
  have htake : (line ++ lineFeed :: rest).takeWhile (· != lineFeed) = line := by
    rw [List.takeWhile_append_of_pos hbytes]
    simp
  rw [splitLines]
  split
  · rename_i hnil
    rw [hdrop] at hnil
    cases hnil
  · rename_i hcons
    rw [hdrop] at hcons
    cases hcons
    rw [htake]

theorem splitLines_nil : splitLines [] = [] := by
  rw [splitLines_of_notMem (by simp), if_pos rfl]

theorem dropCarriageReturn_of_ne (h : line.getLast? ≠ some carriageReturn) : dropCarriageReturn line = line := if_neg h

theorem dropCarriageReturn_concat (line : List UInt8) : dropCarriageReturn (line ++ [carriageReturn]) = line := by
  simp [dropCarriageReturn]

theorem Lines.splitLines_eq (h : Lines bytes lines) : splitLines bytes = lines := by
  induction h with
  | nil => exact splitLines_nil
  | unended hne hline => rw [splitLines_of_notMem hline, if_neg hne]
  | feed hline hlast _ ih => rw [splitLines_append_lineFeed hline, dropCarriageReturn_of_ne hlast, ih]
  | @returnFeed line rest lines hline _ ih =>
    have hline' : lineFeed ∉ line ++ [carriageReturn] := by simpa [hline] using by decide
    rw [← List.singleton_append, ← List.append_assoc, splitLines_append_lineFeed hline', dropCarriageReturn_concat, ih]

theorem lines_splitLines (bytes : List UInt8) : Lines bytes (splitLines bytes) := by
  by_cases h : lineFeed ∈ bytes
  · obtain ⟨line, rest, rfl, hline⟩ := List.eq_append_cons_of_mem h
    rw [splitLines_append_lineFeed hline]
    by_cases hlast : line.getLast? = some carriageReturn
    · obtain ⟨line', rfl⟩ := List.getLast?_eq_some_iff.mp hlast
      have hline' : lineFeed ∉ line' := fun hmem => hline (List.mem_append_left _ hmem)
      rw [dropCarriageReturn_concat, List.append_assoc]
      exact .returnFeed hline' (lines_splitLines rest)
    · rw [dropCarriageReturn_of_ne hlast]
      exact .feed hline hlast (lines_splitLines rest)
  · rw [splitLines_of_notMem h]
    split
    case isTrue hnil =>
      rw [hnil]
      exact .nil
    case isFalse hne => exact .unended hne h
termination_by bytes.length

theorem lines_iff : Lines bytes lines ↔ lines = splitLines bytes := by
  constructor
  · exact fun h => h.splitLines_eq.symm
  · rintro rfl
    exact lines_splitLines bytes

theorem splitLines_append {before : List UInt8} (h : ∀ b ∈ before.getLast?, b = lineFeed) (after : List UInt8) :
    splitLines (before ++ after) = splitLines before ++ splitLines after := by
  by_cases hmem : lineFeed ∈ before
  · obtain ⟨line, rest, rfl, hline⟩ := List.eq_append_cons_of_mem hmem
    have hrest : ∀ b ∈ rest.getLast?, b = lineFeed := by
      intro b hb
      apply h
      simp [List.getLast?_append, List.getLast?_cons, Option.mem_def.mp hb]
    rw [List.append_assoc, List.cons_append, splitLines_append_lineFeed hline, splitLines_append_lineFeed hline,
      splitLines_append hrest, List.cons_append]
  · have hnil : before = [] := by
      by_contra hne
      have hlast := List.getLast?_eq_some_getLast hne
      exact hmem (h _ hlast ▸ List.getLast_mem hne)
    rw [hnil, splitLines_nil, List.nil_append, List.nil_append]
termination_by before.length

end StackCalc.Text
