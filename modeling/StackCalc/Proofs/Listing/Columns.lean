import StackCalc.Proofs.Decimal.Texts
import StackCalc.Proofs.Listing.Rows

/-!
# Columns of a listing

A listing is read by taking it apart: into rows, which end at line feeds, and each row into an offset, a line
and an instruction, which end at spaces. However wide a column is, nothing in it looks like its end.
-/

namespace StackCalc.Listing

structure Columns where
  offset : List Char
  line : List Char
  text : List Char
deriving DecidableEq

def cutWord (cs : List Char) : List Char × List Char :=
  (cs.takeWhile (· ≠ ' '), (cs.dropWhile (· ≠ ' ')).dropWhile (· = ' '))

def columns (row : List Char) : Columns :=
  let (offset, rest) := cutWord row
  let (line, text) := cutWord rest
  ⟨offset, line, text⟩

/-- The rows of a listing, which stand between its title and its end. -/
def table (listing : String) : List Columns :=
  ((listing.toList.splitOnP (· = '\n')).tail.dropLast).map columns

def mark (shown line? : Option Nat) : List Char :=
  match line? with
  | none => ['?']
  | some line => if shown = some line then ['|'] else Nat.toDigits 10 line

def Row.columns (r : Row) : Columns :=
  ⟨(column '0' r.offset).toList, mark r.shown r.line?, r.instruction.text.toList⟩

def Row.body (r : Row) : List Char :=
  (column '0' r.offset).toList ++
    ' ' :: ((lineColumn r.shown r.line?).toList ++ ' ' :: r.instruction.text.toList)

section Words

variable {word rest : List Char} {n : Nat}

theorem dropSpaces_append (n : Nat) (hrest : rest.head? ≠ some ' ') :
    (List.replicate n ' ' ++ rest).dropWhile (· = ' ') = rest := by
  have hnext : ¬Next (fun c => decide (c = ' ')) rest := by
    rintro ⟨c, hc, hspace⟩
    rw [of_decide_eq_true hspace] at hc
    exact hrest hc
  exact (takeWhile_append_after (fun c hc => decide_eq_true (List.eq_of_mem_replicate hc)) hnext).2

theorem cutWord_append (hword : ' ' ∉ word) (hrest : rest.head? ≠ some ' ') :
    cutWord (word ++ ' ' :: (List.replicate n ' ' ++ rest)) = (word, rest) := by
  have hall : ∀ c ∈ word, decide (c ≠ ' ') = true :=
    fun c hc => decide_eq_true (ne_of_mem_of_not_mem hc hword)
  have hnext : ¬Next (fun c => decide (c ≠ ' ')) (' ' :: (List.replicate n ' ' ++ rest)) := by
    rintro ⟨c, hc, hspace⟩
    cases hc
    exact of_decide_eq_true hspace rfl
  obtain ⟨htake, hdrop⟩ := takeWhile_append_after hall hnext
  rw [cutWord, htake, hdrop]
  exact congrArg (word, ·) (dropSpaces_append (n + 1) hrest)

theorem head?_ne_of_notMem {c : Char} (h : c ∉ word) : word.head? ≠ some c :=
  fun hc => h (List.mem_of_mem_head? hc)

end Words

section Text

theorem withOperand_toList (mnemonic operand : String) : (withOperand mnemonic operand).toList =
    mnemonic.toList ++ (List.replicate (mnemonicWidth - mnemonic.toList.length) ' ' ++ operand.toList) := by
  rw [withOperand, String.toList_append, String.toList_ofList, List.rightpad, List.append_assoc]

theorem head?_withOperand {mnemonic : String} {c : Char} (h : mnemonic.toList.head? = some c) (operand : String) :
    (withOperand mnemonic operand).toList.head? = some c := by
  rw [withOperand_toList, List.head?_append, h]
  rfl

theorem head?_text (i : Instruction) : i.text.toList.head? ≠ some ' ' := by
  cases i with
  | push value =>
    rw [Instruction.text, head?_withOperand (c := 'P') rfl]
    decide
  | unknown x =>
    rw [Instruction.text, head?_withOperand (c := 'U') rfl]
    decide
  | operate op => cases op <;> decide
  | _ => decide

theorem notMem_withOperand {mnemonic operand : String} {c : Char} (hm : c ∉ mnemonic.toList) (hc : c ≠ ' ')
    (ho : c ∉ operand.toList) : c ∉ (withOperand mnemonic operand).toList := by
  rw [withOperand_toList]
  simp [hm, hc, ho]

theorem lineFeed_notMem_display (x : Cell) : '\n' ∉ x.display.toList := by
  intro h
  have hblank := x.display_word.2 _ h
  exact absurd hblank (by decide)

theorem lineFeed_notMem_text (i : Instruction) : '\n' ∉ i.text.toList := by
  cases i with
  | push value => exact notMem_withOperand (by decide) (by decide) (lineFeed_notMem_display value)
  | unknown x => exact notMem_withOperand (by decide) (by decide) (lineFeed_notMem_display x)
  | operate op => cases op <;> decide
  | _ => decide

theorem column_toList (filler : Char) (n : Nat) : (column filler n).toList =
    List.replicate (4 - (Nat.toDigits 10 n).length) filler ++ Nat.toDigits 10 n := by
  rw [column, String.toList_ofList, List.leftpad]

theorem isDigit_of_mem_offset {n : Nat} {c : Char} (h : c ∈ (column '0' n).toList) : c.isDigit = true := by
  rw [column_toList, List.mem_append] at h
  rcases h with h | h
  · exact isDigit_of_mem_zeros h
  · exact (digits_toDigits n).2 c h

theorem notMem_of_isDigit {cs : List Char} (hcs : ∀ c ∈ cs, c.isDigit = true) {c : Char}
    (hc : c.isDigit = false) : c ∉ cs := by
  intro h
  cases (hcs c h).symm.trans hc

theorem notMem_mark {c : Char} (hc : c.isDigit = false) (hquestion : c ≠ '?') (hbar : c ≠ '|')
    (shown line? : Option Nat) : c ∉ mark shown line? := by
  unfold mark
  split
  · simp [hquestion]
  · split
    · simp [hbar]
    · exact notMem_of_isDigit (digits_toDigits _).2 hc

theorem mark_ne_nil (shown line? : Option Nat) : mark shown line? ≠ [] := by
  unfold mark
  split
  · exact List.cons_ne_nil _ _
  · split
    · exact List.cons_ne_nil _ _
    · exact Nat.toDigits_ne_nil

theorem lineColumn_toList (shown line? : Option Nat) :
    ∃ n, (lineColumn shown line?).toList = List.replicate n ' ' ++ mark shown line? := by
  cases line? with
  | none =>
    simp only [lineColumn, mark]
    exact ⟨3, rfl⟩
  | some line =>
    by_cases hshown : shown = some line
    · simp only [lineColumn, mark, if_pos hshown]
      exact ⟨3, rfl⟩
    · simp only [lineColumn, mark, if_neg hshown]
      exact ⟨_, column_toList ' ' line⟩

end Text

section Table

variable (r : Row)

theorem columns_body : Listing.columns r.body = r.columns := by
  obtain ⟨n, hline⟩ := lineColumn_toList r.shown r.line?
  have hoffset : ' ' ∉ (column '0' r.offset).toList := notMem_of_isDigit (fun _ => isDigit_of_mem_offset) rfl
  have hmark : ' ' ∉ mark r.shown r.line? := notMem_mark rfl (by decide) (by decide) _ _
  have hrest : (mark r.shown r.line? ++ ' ' :: r.instruction.text.toList).head? ≠ some ' ' := by
    rw [List.head?_append_of_ne_nil _ (mark_ne_nil _ _)]
    exact head?_ne_of_notMem hmark
  have htext : cutWord (mark r.shown r.line? ++ ' ' :: r.instruction.text.toList) =
      (mark r.shown r.line?, r.instruction.text.toList) :=
    cutWord_append (n := 0) hmark (head?_text r.instruction)
  rw [Row.body, hline, List.append_assoc, columns, cutWord_append hoffset hrest]
  simp only [htext]
  rfl

theorem lineFeed_notMem_body : '\n' ∉ r.body := by
  obtain ⟨n, hline⟩ := lineColumn_toList r.shown r.line?
  have hoffset : '\n' ∉ (column '0' r.offset).toList := notMem_of_isDigit (fun _ => isDigit_of_mem_offset) rfl
  have hmark : '\n' ∉ mark r.shown r.line? := notMem_mark rfl (by decide) (by decide) _ _
  have htext := lineFeed_notMem_text r.instruction
  rw [Row.body, hline]
  simp [hoffset, hmark, htext]

theorem toList_write : r.write.toList = r.body ++ ['\n'] := by
  simp [Row.write, row, Row.body]

theorem splitOnP_lines (rows : List (List Char)) (h : ∀ row ∈ rows, '\n' ∉ row) :
    (rows.flatMap (· ++ ['\n'])).splitOnP (· = '\n') = rows ++ [[]] := by
  induction rows with
  | nil => rfl
  | cons row rows ih =>
    obtain ⟨hrow, hrows⟩ := List.forall_mem_cons.mp h
    have hnone : ∀ c ∈ row, decide (c = '\n') = false :=
      fun c hc => decide_eq_false (ne_of_mem_of_not_mem hc hrow)
    rw [List.flatMap_cons, List.append_assoc, List.singleton_append,
      List.splitOnP_append_cons row _ (decide_eq_true rfl), List.splitOnP_eq_singleton hnone, ih hrows]
    rfl

theorem table_join (title : String) (htitle : '\n' ∉ title.toList) (rows : List Row) :
    table (title ++ "\n" ++ String.join (rows.map Row.write)) = rows.map Row.columns := by
  have htext : (title ++ "\n" ++ String.join (rows.map Row.write)).toList =
      (title.toList :: rows.map Row.body).flatMap (· ++ ['\n']) := by
    simp [String.toList_join, List.flatMap_map, toList_write]
  have hrows : ∀ row ∈ title.toList :: rows.map Row.body, '\n' ∉ row := by
    refine List.forall_mem_cons.mpr ⟨htitle, ?_⟩
    intro row hrow
    obtain ⟨r, -, rfl⟩ := List.mem_map.mp hrow
    exact lineFeed_notMem_body r
  rw [table, htext, splitOnP_lines _ hrows]
  simp [columns_body]

end Table

theorem table_ofCells (cells : List Cell) : table (ofCells cells) =
    (Row.place (fun _ => none) none (Instruction.decode 0 cells)).map Row.columns := by
  rw [ofCells_eq_join]
  exact table_join "== <bytecode> ==" (by decide) _

theorem table_listing (c : Chunk) : table c.listing =
    (Row.place c.lineAt none (Instruction.decode 0 c.code.toList)).map Row.columns := by
  rw [c.listing_eq_join]
  exact table_join "== <expression> ==" (by decide) _

end StackCalc.Listing
