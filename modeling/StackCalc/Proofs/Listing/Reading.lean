import StackCalc.Proofs.Listing.Columns

namespace StackCalc

def Instruction.plain : Instruction → Instruction
  | push value => push value.plain
  | unknown x => unknown x.plain
  | i => i

namespace Listing

structure Entry where
  offset : Nat
  line? : Option Nat
  instruction : Instruction
deriving DecidableEq

/-- A number is the line, `|` stands for the line that was shown last, and `?` for none. -/
def readLine? (shown : Option Nat) (line : List Char) : Option (Option Nat) :=
  if line = ['?'] then some none
  else if line = ['|'] then shown.map some
  else if line.all Char.isDigit then some (some (Numeral.value line))
  else none

def alone? : Opcode → Option Instruction
  | .pushNumber => none
  | .negate => some .negate
  | .operate op => some (.operate op)
  | .halt => some .halt

def readInstruction? (text : List Char) : Option Instruction :=
  let (mnemonic, operand) := cutWord text
  if operand = [] then (Opcode.all.find? (·.mnemonic.toList = mnemonic)).bind alone?
  else if mnemonic = "UNKNOWN".toList then (Numeral.read? (.ofList operand)).map .unknown
  else if mnemonic ≠ Opcode.pushNumber.mnemonic.toList then none
  else if operand = missingOperand.toList then some .truncated
  else (Numeral.read? (.ofList operand)).map .push

def readFrom? (shown : Option Nat) : List Columns → Option (List Entry)
  | [] => some []
  | r :: rows =>
    match readLine? shown r.line, readInstruction? r.text with
    | some line?, some i => (readFrom? (line?.or shown) rows).map (⟨Numeral.value r.offset, line?, i⟩ :: ·)
    | _, _ => none

def read? (listing : String) : Option (List Entry) := readFrom? none (table listing)

section Instructions

theorem cutWord_withOperand (mnemonic : String) {operand : String} (hm : ' ' ∉ mnemonic.toList)
    (hlt : mnemonic.toList.length < mnemonicWidth) (ho : operand.toList.head? ≠ some ' ') :
    cutWord (withOperand mnemonic operand).toList = (mnemonic.toList, operand.toList) := by
  obtain ⟨n, hn⟩ := Nat.exists_eq_add_of_lt hlt
  have hspaces : mnemonicWidth - mnemonic.toList.length = n + 1 := by omega
  rw [withOperand_toList, hspaces, List.replicate_succ, List.cons_append]
  exact cutWord_append hm ho

theorem head?_display (x : Cell) : x.display.toList.head? ≠ some ' ' := by
  apply head?_ne_of_notMem
  intro h
  exact absurd (x.display_word.2 _ h) (by decide)

theorem display_ne_missingOperand (x : Cell) : x.display.toList ≠ missingOperand.toList := by
  intro h
  have hspace : ' ' ∈ missingOperand.toList := by decide
  rw [← h] at hspace
  exact absurd (x.display_word.2 _ hspace) (by decide)

theorem readInstruction?_text (i : Instruction) : readInstruction? i.text.toList = some i.plain := by
  cases i with
  | push value =>
    have hcut := cutWord_withOperand Opcode.pushNumber.mnemonic (by decide) (by decide) (head?_display value)
    have hother : Opcode.pushNumber.mnemonic.toList ≠ "UNKNOWN".toList := by decide
    simp only [readInstruction?, Instruction.text, hcut, if_neg value.display_word.1, if_neg hother,
      if_neg (display_ne_missingOperand value), String.ofList_toList, Numeral.read?_display]
    rfl
  | unknown x =>
    have hcut := cutWord_withOperand "UNKNOWN" (by decide) (by decide) (head?_display x)
    simp only [readInstruction?, Instruction.text, hcut, if_neg x.display_word.1,
      String.ofList_toList, Numeral.read?_display]
    rfl
  | operate op => cases op <;> decide +kernel
  | _ => decide +kernel

end Instructions

section Rows

theorem value_offset (n : Nat) : Numeral.value (column '0' n).toList = n := by
  rw [column_toList, value_zeros_append, value_toDigits]

theorem readLine?_mark (shown line? : Option Nat) : readLine? shown (mark shown line?) = some line? := by
  cases line? with
  | none => rfl
  | some line =>
    by_cases hshown : shown = some line
    · simp [mark, readLine?, hshown]
    · have hdigits : Digits (Nat.toDigits 10 line) := digits_toDigits line
      have hquestion : Nat.toDigits 10 line ≠ ['?'] := by
        intro h
        exact notMem_of_isDigit hdigits.2 (c := '?') rfl (by simp [h])
      have hbar : Nat.toDigits 10 line ≠ ['|'] := by
        intro h
        exact notMem_of_isDigit hdigits.2 (c := '|') rfl (by simp [h])
      simp only [mark, if_neg hshown, readLine?, if_neg hquestion, if_neg hbar,
        List.all_eq_true.mpr hdigits.2, value_toDigits, ↓reduceIte]

theorem readFrom?_place (lineAt : Nat → Option Nat) (shown : Option Nat) (placed : List (Nat × Instruction)) :
    readFrom? shown ((Row.place lineAt shown placed).map Row.columns) =
      some (placed.map fun p => ⟨p.1, lineAt p.1, p.2.plain⟩) := by
  induction placed generalizing shown with
  | nil => rfl
  | cons p placed ih =>
    rw [Row.place, List.map_cons, readFrom?]
    simp only [Row.columns, readLine?_mark, readInstruction?_text, ih, value_offset]
    rfl

end Rows

theorem read?_listing (c : Chunk) : read? c.listing =
    some ((Instruction.decode 0 c.code.toList).map fun p => ⟨p.1, c.lineAt p.1, p.2.plain⟩) := by
  rw [read?, table_listing, readFrom?_place]

end Listing

end StackCalc
