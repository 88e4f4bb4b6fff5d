import StackCalc.Listing
import StackCalc.Proofs.Machine.Heights

/-!
# Rows of a listing

A listing counts its way from offset to offset, while instructions are decoded from what is left of the
code. Both come upon the same instructions, and these share out the cells among themselves.
-/

namespace StackCalc

namespace Instruction

def text : Instruction → String
  | push value => Listing.withOperand Opcode.pushNumber.mnemonic value.display
  | truncated => Listing.withOperand Opcode.pushNumber.mnemonic Listing.missingOperand
  | negate => Opcode.negate.mnemonic
  | operate op => (Opcode.operate op).mnemonic
  | halt => Opcode.halt.mnemonic
  | unknown cell => Listing.withOperand "UNKNOWN" cell.display

/-- Instructions that share out the cells from `start` up to `stop`. Only a push that stands last and has no
operand reaches further. -/
structure Tile (start stop : Nat) (placed : List (Nat × Instruction)) : Prop where
  first : ∀ p ∈ placed.head?, p.1 = start
  ordered : placed.Pairwise fun p q => p.1 < q.1
  covered : ∀ n, start ≤ n → n < stop → ∃! p, p ∈ placed ∧ p.1 ≤ n ∧ n < p.1 + p.2.span
  within : ∀ p ∈ placed, p.1 + p.2.span ≤ stop ∨
    placed.getLast? = some p ∧ p.2 = .truncated ∧ p.1 + 1 = stop

section Tiles

variable {start n : Nat} {i : Instruction} {x : Cell} {cells rest : List Cell} {p : Nat × Instruction}

theorem start_le_of_mem_decode (h : p ∈ decode start cells) : start ≤ p.1 := by
  obtain ⟨n, -, -, hp, -⟩ := exists_of_mem_decode h
  exact Nat.le.intro hp.symm

theorem decode_ordered (start : Nat) (cells : List Cell) :
    (decode start cells).Pairwise fun p q => p.1 < q.1 := by
  fun_induction decode start cells with
  | case1 => exact .nil
  | case2 start x cells step ih =>
    refine .cons ?_ ih
    intro q hq
    exact Nat.lt_of_lt_of_le (Nat.lt_add_of_pos_right step.1.span_pos) (start_le_of_mem_decode hq)

theorem decode_covered (hle : start ≤ n) (hlt : n < start + cells.length) :
    ∃! p, p ∈ decode start cells ∧ p.1 ≤ n ∧ n < p.1 + p.2.span := by
  fun_induction decode start cells with
  | case1 start => exact absurd hlt (Nat.not_lt.mpr hle)
  | case2 start x cells step ih =>
    by_cases hn : n < start + step.1.span
    · refine ⟨(start, step.1), ⟨List.mem_cons_self .., hle, hn⟩, ?_⟩
      rintro q ⟨hq, hqn, -⟩
      refine (List.mem_cons.mp hq).resolve_right fun hq => ?_
      have := start_le_of_mem_decode hq
      omega
    · have hrest : n < start + step.1.span + step.2.length := by
        have hfetch : fetch x cells = (step.1, step.2) := rfl
        rw [List.length_cons] at hlt
        rcases fetch_length hfetch with hlength | ⟨hi, rfl⟩
        · omega
        · rw [hi] at hn
          simp only [span, List.length_nil] at hn hlt
          omega
      obtain ⟨p, ⟨hp, hplace⟩, hunique⟩ := ih (Nat.not_lt.mp hn) hrest
      refine ⟨p, ⟨List.mem_cons_of_mem _ hp, hplace⟩, ?_⟩
      rintro q ⟨hq, hqn⟩
      rcases List.mem_cons.mp hq with rfl | hq
      · exact absurd hqn.2 hn
      · exact hunique q ⟨hq, hqn⟩

theorem decode_within (h : p ∈ decode start cells) : p.1 + p.2.span ≤ start + cells.length ∨
    (decode start cells).getLast? = some p ∧ p.2 = .truncated ∧ p.1 + 1 = start + cells.length := by
  fun_induction decode start cells with
  | case1 => cases h
  | case2 start x cells step ih =>
    have hfetch : fetch x cells = (step.1, step.2) := rfl
    rcases fetch_length hfetch with hlength | ⟨hi, rfl⟩
    · rcases List.mem_cons.mp h with rfl | h
      · have hplace : start + step.1.span ≤ start + (x :: cells).length := by
          rw [List.length_cons]
          omega
        exact .inl hplace
      · have hend : start + step.1.span + step.2.length = start + (x :: cells).length := by
          rw [List.length_cons]
          omega
        rw [← hend]
        refine (ih h).imp_right ?_
        rintro ⟨hlast, hp⟩
        refine ⟨?_, hp⟩
        rw [List.getLast?_cons, hlast]
        rfl
    · have hrest : step.2 = [] := List.eq_nil_of_length_eq_zero (Nat.le_zero.mp (fetch_length_le x []))
      have hnone : decode (start + step.1.span) step.2 = [] := by rw [hrest, decode]
      rw [hnone, List.mem_singleton] at h
      subst h
      exact .inr ⟨by rw [hnone]; rfl, hi, rfl⟩

theorem decode_tile (code : List Cell) : Tile 0 code.length (decode 0 code) := by
  refine ⟨?_, decode_ordered 0 code, ?_, ?_⟩
  · intro p hp
    cases code with
    | nil => simp [decode] at hp
    | cons x cells =>
      rw [decode] at hp
      cases hp
      rfl
  · intro n hle hlt
    exact decode_covered hle (by rwa [Nat.zero_add])
  · intro p hp
    have hwithin := decode_within hp
    rwa [Nat.zero_add] at hwithin

end Tiles

end Instruction

namespace Listing

open Instruction (decode fetch)

variable {code : Array Cell} {offset : Nat} {x : Cell} {cells rest : List Cell} {i : Instruction}

theorem instruction_eq (hcode : code.toList.drop offset = x :: cells) (h : fetch x cells = (i, rest)) :
    instruction code offset x = (i.text, offset + i.span) := by
  have hoperand : code[offset + 1]? = cells.head? := by
    rw [← Array.getElem?_toList, ← List.head?_drop, ← List.drop_drop, hcode]
    rfl
  unfold fetch at h
  unfold instruction
  split at h
  all_goals
    rename_i hx
    cases h
    simp only [hx, hoperand]
    rfl

structure Row where
  offset : Nat
  /-- The line that the rows above have shown last. -/
  shown : Option Nat
  line? : Option Nat
  instruction : Instruction

def Row.write (r : Row) : String := row r.offset r.shown r.line? r.instruction.text

def Row.place (lineAt : Nat → Option Nat) (shown : Option Nat) : List (Nat × Instruction) → List Row
  | [] => []
  | (offset, i) :: placed =>
    ⟨offset, shown, lineAt offset, i⟩ :: place lineAt ((lineAt offset).or shown) placed

theorem Row.place_none (placed : List (Nat × Instruction)) :
    place (fun _ => none) none placed = placed.map fun p => ⟨p.1, none, none, p.2⟩ := by
  induction placed with
  | nil => rfl
  | cons p placed ih =>
    rw [List.map_cons, ← ih]
    rfl

theorem rows_eq (lineAt : Nat → Option Nat) (shown : Option Nat) (hcode : code.toList.drop offset = cells) :
    rows code lineAt offset shown = (Row.place lineAt shown (decode offset cells)).map Row.write := by
  fun_induction decode offset cells generalizing shown with
  | case1 offset =>
    have hnone : code[offset]? = none := by
      rw [← Array.getElem?_toList, ← List.head?_drop, hcode]
      rfl
    rw [rows]
    split
    · rfl
    · rename_i hsome
      cases hnone.symm.trans hsome
  | case2 offset x cells next ih =>
    have hfetch : fetch x cells = (next.1, next.2) := rfl
    have hsome : code[offset]? = some x := by
      rw [← Array.getElem?_toList, ← List.head?_drop, hcode]
      rfl
    have hrest : code.toList.drop (offset + next.1.span) = next.2 := by
      rw [Instruction.fetch_rest hfetch, ← hcode, List.drop_drop]
    rw [rows]
    split
    · rename_i hnone
      cases hnone.symm.trans hsome
    · rename_i hcell
      cases hsome.symm.trans hcell
      simp only [instruction_eq hcode hfetch, ih _ hrest]
      rfl

theorem Row.write_none (offset : Nat) (i : Instruction) :
    write ⟨offset, none, none, i⟩ = column '0' offset ++ "    ? " ++ i.text ++ "\n" := by
  have hcolumn : column '0' offset ++ "    ? " = column '0' offset ++ " " ++ "   ?" ++ " " := by
    rw [String.append_assoc, String.append_assoc]
    rfl
  rw [hcolumn]
  rfl

theorem ofCells_eq_join (cells : List Cell) : ofCells cells = "== <bytecode> ==\n" ++
    String.join ((Row.place (fun _ => none) none (decode 0 cells)).map Row.write) := by
  have hrows : rows cells.toArray (fun _ => none) 0 none =
      (Row.place (fun _ => none) none (decode 0 cells)).map Row.write := rows_eq _ _ List.drop_zero
  exact congrArg (fun rows => "== <bytecode> ==\n" ++ String.join rows) hrows

theorem ofCells_eq (cells : List Cell) : ofCells cells = "== <bytecode> ==\n" ++
    String.join ((decode 0 cells).map fun p => column '0' p.1 ++ "    ? " ++ p.2.text ++ "\n") := by
  have hrows : (Row.place (fun _ => none) none (decode 0 cells)).map Row.write =
      (decode 0 cells).map fun p => column '0' p.1 ++ "    ? " ++ p.2.text ++ "\n" := by
    rw [Row.place_none, List.map_map]
    exact List.map_congr_left fun p _ => Row.write_none p.1 p.2
  rw [← hrows]
  exact ofCells_eq_join cells

end Listing

def Chunk.lineAt (c : Chunk) (offset : Nat) : Option Nat := c.lines[offset]?

theorem Chunk.listing_eq_join (c : Chunk) : c.listing = "== <expression> ==\n" ++
    String.join ((Listing.Row.place c.lineAt none (Instruction.decode 0 c.code.toList)).map Listing.Row.write) := by
  have hrows : Listing.rows c.code c.lineAt 0 none =
      (Listing.Row.place c.lineAt none (Instruction.decode 0 c.code.toList)).map Listing.Row.write :=
    Listing.rows_eq _ _ List.drop_zero
  exact congrArg (fun rows => "== <expression> ==\n" ++ String.join rows) hrows

end StackCalc
