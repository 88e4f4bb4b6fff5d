import Mathlib.Data.List.Forall2
import StackCalc.Proofs.Machine.Heights
import StackCalc.Proofs.Parsing.Language

/-!
# What is written of a tree

The code of a tree is made of whole instructions, each with all its cells on one line. Such code decodes to
the instructions that it is made of, and the line at which one is found is its own.
-/

namespace StackCalc

namespace Instruction

def cells : Instruction → List Cell
  | push value => [Opcode.pushNumber.cell, value]
  | truncated => [Opcode.pushNumber.cell]
  | negate => [Opcode.negate.cell]
  | operate op => [(Opcode.operate op).cell]
  | halt => [Opcode.halt.cell]
  | unknown x => [x]

def Whole : Instruction → Prop
  | truncated | unknown _ => False
  | _ => True

/-- The cells of instructions one after the other, each with the line of its instruction. -/
def lay (written : List (Instruction × Nat)) : List (Cell × Nat) :=
  written.flatMap fun p => p.1.cells.map (·, p.2)

variable {i : Instruction} {written written' : List (Instruction × Nat)}

theorem lay_append : lay (written ++ written') = lay written ++ lay written' := List.flatMap_append

theorem decode_cells (h : i.Whole) (start : Nat) (rest : List Cell) :
    decode start (i.cells ++ rest) = (start, i) :: decode (start + i.span) rest := by
  cases i with
  | push value => exact decode_cons (fetch_pushNumber value rest)
  | negate => exact decode_cons (fetch_negate rest)
  | operate op => exact decode_cons (fetch_operate op rest)
  | halt => exact decode_cons (fetch_halt rest)
  | truncated => cases h
  | unknown x => cases h

theorem length_cells (h : i.Whole) : i.cells.length = i.span := by
  cases i with
  | truncated => cases h
  | _ => rfl

def place (start : Nat) : List (Instruction × Nat) → List (Nat × Instruction)
  | [] => []
  | (i, _) :: written => (start, i) :: place (start + i.span) written

theorem map_place (start : Nat) (written : List (Instruction × Nat)) :
    (place start written).map Prod.snd = written.map Prod.fst := by
  induction written generalizing start with
  | nil => rfl
  | cons p written ih => rw [place, List.map_cons, List.map_cons, ih]

theorem place_append (start : Nat) (written written' : List (Instruction × Nat)) : ∃ stop,
    place start (written ++ written') = place start written ++ place stop written' := by
  induction written generalizing start with
  | nil => exact ⟨start, rfl⟩
  | cons p written ih =>
    obtain ⟨stop, hstop⟩ := ih (start + p.1.span)
    exact ⟨stop, congrArg ((start, p.1) :: ·) hstop⟩

theorem decode_eq_place (h : ∀ p ∈ written, p.1.Whole) (start : Nat) :
    decode start ((lay written).map Prod.fst) = place start written := by
  induction written generalizing start with
  | nil => simp [lay, decode, place]
  | cons p written ih =>
    obtain ⟨hp, hwritten⟩ := List.forall_mem_cons.mp h
    have hcode : (lay (p :: written)).map Prod.fst = p.1.cells ++ (lay written).map Prod.fst := by
      simp [lay, Function.comp_def]
    rw [hcode, decode_cells hp, ih hwritten, place]

theorem lines_lay (h : ∀ p ∈ written, p.1.Whole) (before after : List Nat) :
    List.Forall₂ (fun p q => p.2 = q.1 ∧ ∀ n, p.1 ≤ n → n < p.1 + p.2.span →
        (before ++ ((lay written).map Prod.snd ++ after))[n]? = some q.2)
      (place before.length written) written := by
  induction written generalizing before with
  | nil => exact .nil
  | cons p written ih =>
    obtain ⟨hp, hwritten⟩ := List.forall_mem_cons.mp h
    have hlines : before ++ ((lay (p :: written)).map Prod.snd ++ after) =
        before ++ List.replicate p.1.span p.2 ++ ((lay written).map Prod.snd ++ after) := by
      simp [lay, Function.comp_def, List.map_const', length_cells hp]
    have hlength : (before ++ List.replicate p.1.span p.2).length = before.length + p.1.span := by
      rw [List.length_append, List.length_replicate]
    have hrest := ih hwritten (before ++ List.replicate p.1.span p.2)
    rw [hlength] at hrest
    rw [hlines]
    refine .cons ⟨rfl, ?_⟩ hrest
    intro n (hle : before.length ≤ n) (hlt : n < before.length + p.1.span)
    have hn : n - before.length < p.1.span := by omega
    rw [List.getElem?_append_left (by omega), List.getElem?_append_right hle, List.getElem?_replicate, if_pos hn]

theorem decode_lay (h : ∀ p ∈ written, p.1.Whole) :
    ((decode 0 ((lay written).map Prod.fst)).map fun p => (p.2, ((lay written).map Prod.snd)[p.1]?)) =
      written.map fun p => (p.1, some p.2) := by
  rw [decode_eq_place h, ← List.forall₂_eq_eq_eq, List.forall₂_map_left_iff, List.forall₂_map_right_iff]
  refine (lines_lay h [] []).imp ?_
  rintro p q ⟨hp, hline⟩
  have hfirst := hline p.1 (Nat.le_refl _) (Nat.lt_add_of_pos_right p.2.span_pos)
  rw [List.nil_append, List.append_nil] at hfirst
  rw [hp, hfirst]

end Instruction

namespace Expr

def instructions : Expr → List (Instruction × Nat)
  | number m x => [(.push x, m.line)]
  | group _ e _ => e.instructions
  | negation m e => e.instructions ++ [(.negate, m.line)]
  | binary op m l r => l.instructions ++ r.instructions ++ [(.operate op, m.line)]

open Instruction (lay lay_append)

theorem cells_eq_lay (e : Expr) : e.cells = lay e.instructions := by
  induction e with
  | number m x => rfl
  | group _ e _ ih => exact ih
  | negation m e ih =>
    rw [cells, instructions, lay_append, ih]
    rfl
  | binary op m l r ihl ihr =>
    rw [cells, instructions, lay_append, lay_append, ihl, ihr]
    rfl

theorem whole_of_mem {e : Expr} {p : Instruction × Nat} (h : p ∈ e.instructions) : p.1.Whole := by
  induction e with
  | number m x =>
    cases List.mem_singleton.mp h
    trivial
  | group _ e _ ih => exact ih h
  | negation m e ih =>
    rcases List.mem_append.mp h with h | h
    · exact ih h
    · cases List.mem_singleton.mp h
      trivial
  | binary op m l r ihl ihr =>
    rcases List.mem_append.mp h with h | h
    · rcases List.mem_append.mp h with h | h
      · exact ihl h
      · exact ihr h
    · cases List.mem_singleton.mp h
      trivial

def program (e : Expr) (lastLine : Nat) : List (Instruction × Nat) := e.instructions ++ [(.halt, lastLine)]

theorem whole_of_mem_program {e : Expr} {lastLine : Nat} {p : Instruction × Nat} (h : p ∈ e.program lastLine) :
    p.1.Whole := by
  rcases List.mem_append.mp h with h | h
  · exact whole_of_mem h
  · cases List.mem_singleton.mp h
    trivial

end Expr

theorem Chunk.code_extend (cells : List (Cell × Nat)) : (extend {} cells).code.toList = cells.map Prod.fst := by
  simp [extend]

theorem Chunk.lines_extend (cells : List (Cell × Nat)) : (extend {} cells).lines.toList = cells.map Prod.snd := by
  simp [extend]

theorem Compiler.chunk_of_compileWithin {limit : Option Nat} {ts : List Token} {e : Expr} {chunk : Chunk}
    (h : e.Heads limit ts) (hc : compileWithin limit ts = .ok chunk) :
    chunk = Chunk.extend {} (Instruction.lay (e.program (lastLineOf ts))) := by
  cases hc.symm.trans (compileWithin_of_heads h)
  rw [Expr.program, Instruction.lay_append, ← e.cells_eq_lay, Chunk.extend_append]
  exact (Chunk.extend_singleton _ _ _).symm

end StackCalc
