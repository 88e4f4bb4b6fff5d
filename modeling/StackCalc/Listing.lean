import StackCalc.Cell.Text
import StackCalc.Chunk

/-!
# Listings

A listing has a row for each instruction: its offset, its source line, and what it says. A line is
written where it changes; `|` repeats the line above and `?` stands where none is known. Cells that
cannot be executed are listed too, and so is what stands behind them.
-/

namespace StackCalc

namespace Listing

def mnemonicWidth : Nat := 13

def withOperand (mnemonic operand : String) : String :=
  .ofList (mnemonic.toList.rightpad mnemonicWidth ' ') ++ operand

def missingOperand : String := "<missing operand>"

/-- What the cell `x` at `offset` says, and the offset of the row after it. -/
def instruction (code : Array Cell) (offset : Nat) (x : Cell) : String × Nat :=
  match Opcode.ofCell? x with
  | some .pushNumber =>
    let operand := (code[offset + 1]?.map Cell.display).getD missingOperand
    (withOperand Opcode.pushNumber.mnemonic operand, offset + 2)
  | some op => (op.mnemonic, offset + 1)
  | none => (withOperand "UNKNOWN" x.display, offset + 1)

theorem lt_instruction (code : Array Cell) (offset : Nat) (x : Cell) :
    offset < (instruction code offset x).2 := by
  unfold instruction
  split <;> simp

def column (filler : Char) (n : Nat) : String := .ofList ((Nat.toDigits 10 n).leftpad 4 filler)

def lineColumn (shown line? : Option Nat) : String :=
  match line? with
  | none => "   ?"
  | some line => if shown = some line then "   |" else column ' ' line

def row (offset : Nat) (shown line? : Option Nat) (text : String) : String :=
  column '0' offset ++ " " ++ lineColumn shown line? ++ " " ++ text ++ "\n"

/-- The rows from `offset` on, where the rows above have shown the line `shown` last. -/
def rows (code : Array Cell) (lineAt : Nat → Option Nat) (offset : Nat) (shown : Option Nat) :
    List String :=
  match _h : code[offset]? with
  | none => []
  | some x =>
    let said := instruction code offset x
    row offset shown (lineAt offset) said.1 :: rows code lineAt said.2 ((lineAt offset).or shown)
termination_by code.size - offset
decreasing_by
  have hsize := (Array.getElem?_eq_some_iff.mp _h).1
  have hnext := lt_instruction code offset x
  omega

def ofCells (cells : List Cell) : String :=
  "== <bytecode> ==\n" ++ String.join (rows cells.toArray (fun _ => none) 0 none)

end Listing

def Chunk.listing (c : Chunk) : String :=
  "== <expression> ==\n" ++ String.join (Listing.rows c.code (c.lines[·]?) 0 none)

end StackCalc
