import StackCalc.Proofs.Listing.Rows
import StackCalc.Proofs.Parsing.Emission

/-!
# Chunks built call by call

A chunk is built by calls, each of which adds one instruction and answers the offset at which it begins. In the
finished code nothing but the opcodes tells where the next instruction begins, and operands may look like opcodes;
still a decoder that starts at the first cell comes upon the instructions of the calls, at the offsets that were
answered.
-/

namespace StackCalc

open Instruction (lay place decode fetch)

namespace Chunk

inductive Call where
  | emit (op : Opcode) (line : Nat)
  | emitNumber (x : Cell) (line : Nat)

namespace Call

def run : Call → StateM Chunk Nat
  | emit op line => Chunk.emit op line
  | emitNumber x line => Chunk.emitNumber x line

def opcode : Call → Opcode
  | emit op _ => op
  | emitNumber _ _ => .pushNumber

def operand? : Call → Option Cell
  | emit _ _ => none
  | emitNumber x _ => some x

def line : Call → Nat
  | emit _ line => line
  | emitNumber _ line => line

def Complete : Call → Prop
  | emit op _ => op ≠ .pushNumber
  | emitNumber _ _ => True

def instruction : Call → Instruction
  | emit .pushNumber _ => .truncated
  | emit .negate _ => .negate
  | emit (.operate op) _ => .operate op
  | emit .halt _ => .halt
  | emitNumber x _ => .push x

def written (call : Call) : Instruction × Nat := (call.instruction, call.line)

variable {call : Call} {c : Chunk}

theorem cells_instruction (call : Call) : call.instruction.cells = call.opcode.cell :: call.operand?.toList := by
  cases call with
  | emit op line => cases op <;> rfl
  | emitNumber x line => rfl

theorem whole_of_complete (h : call.Complete) : call.instruction.Whole := by
  cases call with
  | emit op line => cases op <;> simp_all [Complete, instruction, Instruction.Whole]
  | emitNumber x line => trivial

theorem fetch_eq (h : call.Complete) (rest : List Cell) :
    fetch call.opcode.cell (call.operand?.toList ++ rest) = (call.instruction, rest) := by
  cases call with
  | emit op line =>
    cases op with
    | pushNumber => exact absurd rfl h
    | negate => exact Instruction.fetch_negate rest
    | operate op => exact Instruction.fetch_operate op rest
    | halt => exact Instruction.fetch_halt rest
  | emitNumber x line => exact Instruction.fetch_pushNumber x rest

theorem run_eq (call : Call) (c : Chunk) :
    call.run c = (c.size, c.extend (call.instruction.cells.map (·, call.line))) := by
  rw [cells_instruction]
  cases call with
  | emit op line => exact congrArg (Prod.mk c.size) (extend_singleton c op line).symm
  | emitNumber x line => exact congrArg (Prod.mk c.size) (extend_pair c x line).symm

structure DecodedAt (call : Call) (c : Chunk) (offset : Nat) : Prop where
  opcode : c.code[offset]?.bind Opcode.ofCell? = some call.opcode
  operand : ∀ x ∈ call.operand?, c.code[offset + 1]? = some x
  lines : ∀ n, offset ≤ n → n < offset + call.instruction.span → c.lines[n]? = some call.line
  row : ∃ x, c.code[offset]? = some x ∧
    Listing.instruction c.code offset x = (call.instruction.text, offset + call.instruction.span)

end Call

def build (c : Chunk) : List Call → List Nat × Chunk
  | [] => ([], c)
  | call :: calls =>
    let (offset, c) := call.run c
    let (offsets, c) := build c calls
    (offset :: offsets, c)

section Build

variable {c : Chunk} {call : Call} {calls : List Call}

theorem build_cons (c : Chunk) (call : Call) (calls : List Call) : build c (call :: calls) =
    (c.size :: (build (c.extend (call.instruction.cells.map (·, call.line))) calls).1,
      (build (c.extend (call.instruction.cells.map (·, call.line))) calls).2) := by
  rw [build, call.run_eq]

theorem length_build (c : Chunk) (calls : List Call) : (build c calls).1.length = calls.length := by
  induction calls generalizing c with
  | nil => rfl
  | cons call calls ih => rw [build_cons, List.length_cons, ih, List.length_cons]

theorem build_chunk (c : Chunk) (calls : List Call) :
    (build c calls).2 = c.extend (lay (calls.map Call.written)) := by
  induction calls generalizing c with
  | nil => exact (extend_nil c).symm
  | cons call calls ih =>
    rw [build_cons, ih, ← extend_append]
    rfl

theorem size_extend (c : Chunk) (cells : List (Cell × Nat)) : (c.extend cells).size = c.size + cells.length := by
  simp [size, extend]

theorem lines_size_extend (c : Chunk) (cells : List (Cell × Nat)) :
    (c.extend cells).lines.size = c.lines.size + cells.length := by
  simp [extend]

theorem build_offsets (h : ∀ call ∈ calls, call.Complete) :
    (build c calls).1 = (place c.size (calls.map Call.written)).map Prod.fst := by
  induction calls generalizing c with
  | nil => rfl
  | cons call calls ih =>
    obtain ⟨hcall, hcalls⟩ := List.forall_mem_cons.mp h
    have hspan := Instruction.length_cells (Call.whole_of_complete hcall)
    rw [build_cons, ih hcalls, size_extend, List.length_map, hspan]
    rfl

theorem paired_build (calls : List Call) : (build {} calls).2.code.size = (build {} calls).2.lines.size := by
  have hsize := size_extend {} (lay (calls.map Call.written))
  have hlines := lines_size_extend {} (lay (calls.map Call.written))
  rw [build_chunk, hlines]
  exact hsize

theorem decode_build (h : ∀ call ∈ calls, call.Complete) : decode 0 (build {} calls).2.code.toList =
    (build {} calls).1.zip (calls.map Call.instruction) := by
  have hwhole : ∀ p ∈ calls.map Call.written, p.1.Whole :=
    List.forall_mem_map.mpr fun call hcall => Call.whole_of_complete (h call hcall)
  rw [build_chunk, code_extend, Instruction.decode_eq_place hwhole, build_offsets h]
  apply List.zip_of_prod
  · rfl
  · rw [Instruction.map_place, List.map_map]
    rfl

theorem getElem?_build {n : Nat} (hn : calls[n]? = some call) :
    (build c calls).1[n]? = some (build c (calls.take n)).2.size := by
  induction calls generalizing c n with
  | nil => simp at hn
  | cons first calls ih =>
    rw [build_cons]
    cases n with
    | zero => rfl
    | succ n =>
      rw [List.getElem?_cons_succ] at hn ⊢
      rw [List.take_succ_cons, build_cons, ih hn]

theorem code_drop_size (c : Chunk) (cells : List (Cell × Nat)) :
    (c.extend cells).code.toList.drop c.size = cells.map Prod.fst := by
  simp [extend, size]

theorem lines_drop_size (hsize : c.code.size = c.lines.size) (cells : List (Cell × Nat)) :
    (c.extend cells).lines.toList.drop c.size = cells.map Prod.snd := by
  simp [extend, size, hsize]

theorem lay_written (call : Call) (written : List (Instruction × Nat)) : lay (call.written :: written) =
    (call.opcode.cell :: call.operand?.toList).map (·, call.line) ++ lay written := by
  rw [← call.cells_instruction]
  rfl

theorem decodedAt_extend (hsize : c.code.size = c.lines.size) (hcall : call.Complete)
    (written : List (Instruction × Nat)) :
    call.DecodedAt (c.extend (lay (call.written :: written))) c.size := by
  have hcode : (c.extend (lay (call.written :: written))).code.toList.drop c.size =
      call.opcode.cell :: (call.operand?.toList ++ (lay written).map Prod.fst) := by
    rw [code_drop_size, lay_written]
    simp [Function.comp_def]
  have hlines : (c.extend (lay (call.written :: written))).lines.toList.drop c.size =
      List.replicate call.instruction.span call.line ++ (lay written).map Prod.snd := by
    rw [lines_drop_size hsize, lay_written, ← call.cells_instruction,
      ← Instruction.length_cells (Call.whole_of_complete hcall)]
    simp [Function.comp_def, List.map_const']
  have hcell (k : Nat) : (c.extend (lay (call.written :: written))).code[c.size + k]? =
      (call.opcode.cell :: (call.operand?.toList ++ (lay written).map Prod.fst))[k]? := by
    rw [← Array.getElem?_toList, ← List.getElem?_drop, hcode]
  have hfirst : (c.extend (lay (call.written :: written))).code[c.size]? = some call.opcode.cell := hcell 0
  refine ⟨?_, ?_, ?_, ?_⟩
  · rw [hfirst]
    exact Opcode.ofCell?_cell call.opcode
  · intro x hx
    rw [hcell 1, Option.mem_def.mp hx]
    rfl
  · intro n hle hlt
    obtain ⟨k, rfl⟩ := Nat.exists_eq_add_of_le hle
    have hk : k < call.instruction.span := by omega
    rw [← Array.getElem?_toList, ← List.getElem?_drop, hlines, List.getElem?_append_left (by simpa using hk)]
    simp [hk]
  · exact ⟨call.opcode.cell, hfirst, Listing.instruction_eq hcode (Call.fetch_eq hcall _)⟩

theorem decodedAt_build {n : Nat} (h : ∀ call ∈ calls, call.Complete) (hn : calls[n]? = some call) :
    call.DecodedAt (build {} calls).2 (build {} (calls.take n)).2.size := by
  obtain ⟨hlt, rfl⟩ := List.getElem?_eq_some_iff.mp hn
  have hcalls : calls = calls.take n ++ (calls[n] :: calls.drop (n + 1)) := by
    rw [← List.drop_eq_getElem_cons hlt, List.take_append_drop]
  have hchunk : (build {} calls).2 =
      (build {} (calls.take n)).2.extend (lay (calls[n].written :: (calls.drop (n + 1)).map Call.written)) := by
    rw [build_chunk, build_chunk, ← extend_append, ← Instruction.lay_append, ← List.map_cons, ← List.map_append,
      ← hcalls]
  rw [hchunk]
  exact decodedAt_extend (paired_build (calls.take n)) (h calls[n] (List.getElem_mem hlt)) _

end Build

theorem build_decodes {calls : List Call} (h : ∀ call ∈ calls, call.Complete) :
    let c := (build {} calls).2
    let offsets := (build {} calls).1
    (∀ n, (build {} (calls.take n)).2.code.size = (build {} (calls.take n)).2.lines.size) ∧
    decode 0 c.code.toList = offsets.zip (calls.map Call.instruction) ∧ offsets.length = calls.length ∧
    c.listing = "== <expression> ==\n" ++ String.join
      ((Listing.Row.place c.lineAt none (offsets.zip (calls.map Call.instruction))).map Listing.Row.write) ∧
    ∀ n call, calls[n]? = some call → ∃ offset, offsets[n]? = some offset ∧
      offset = (build {} (calls.take n)).2.size ∧ call.DecodedAt c offset := by
  intro c offsets
  have hdecode : decode 0 c.code.toList = offsets.zip (calls.map Call.instruction) := decode_build h
  refine ⟨fun n => paired_build (calls.take n), hdecode, length_build {} calls, ?_, ?_⟩
  · rw [← hdecode]
    exact c.listing_eq_join
  · intro n call hn
    exact ⟨_, getElem?_build hn, rfl, decodedAt_build h hn⟩

/-- The operand of the first push is a halt, and that of the second one is no number. -/
theorem build_decodes_operands :
    let calls : List Call :=
      [.emitNumber Opcode.halt.cell 1, .emitNumber Cell.nan 2, .emit (.operate .sum) 2, .emit .halt 3]
    let c : Chunk := ⟨#[Opcode.pushNumber.cell, Opcode.halt.cell, Opcode.pushNumber.cell, Cell.nan,
      (Opcode.operate .sum).cell, Opcode.halt.cell], #[1, 1, 2, 2, 2, 3]⟩
    (∀ call ∈ calls, call.Complete) ∧ build {} calls = ([0, 2, 4, 5], c) ∧
      decode 0 c.code.toList = [(0, .push Opcode.halt.cell), (2, .push Cell.nan), (4, .operate .sum), (5, .halt)] ∧
      (Call.emitNumber Cell.nan 2).DecodedAt c 2 := by
  intro calls c
  have hcalls : ∀ call ∈ calls, call.Complete := by simp [calls, Call.Complete]
  have hbuild : build {} calls = ([0, 2, 4, 5], c) := by decide +kernel
  obtain ⟨-, hdecode, -, -, hplaces⟩ := build_decodes hcalls
  obtain ⟨offset, hoffset, -, hat⟩ := hplaces 1 _ rfl
  rw [hbuild] at hdecode hoffset hat
  cases hoffset
  exact ⟨hcalls, hbuild, hdecode, hat⟩

end Chunk

end StackCalc
