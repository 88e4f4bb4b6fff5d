import Mathlib.Logic.Relation
import StackCalc.Machine

namespace StackCalc

theorem Opcode.ofCell?_cell (op : Opcode) : ofCell? op.cell = some op := by
  cases op with
  | operate op => cases op <;> decide +kernel
  | _ => decide +kernel

namespace Instruction

theorem fetch_pushNumber (x : Cell) (cells : List Cell) :
    fetch Opcode.pushNumber.cell (x :: cells) = (.push x, cells) := by
  simp only [fetch, Opcode.ofCell?_cell]

theorem fetch_negate (cells : List Cell) : fetch Opcode.negate.cell cells = (.negate, cells) := by
  simp only [fetch, Opcode.ofCell?_cell]

theorem fetch_operate (op : Operator) (cells : List Cell) :
    fetch (Opcode.operate op).cell cells = (.operate op, cells) := by
  simp only [fetch, Opcode.ofCell?_cell]

theorem fetch_halt (cells : List Cell) : fetch Opcode.halt.cell cells = (.halt, cells) := by
  simp only [fetch, Opcode.ofCell?_cell]

end Instruction

namespace Frame

variable {f g : Frame} {offset : Nat} {rest stack : List Cell}

theorem step_pushNumber (x : Cell) : step ⟨offset, Opcode.pushNumber.cell :: x :: rest, stack⟩ =
    .running ⟨offset + 2, rest, x :: stack⟩ := by
  simp only [step, Instruction.fetch_pushNumber, Instruction.span]

theorem step_negate (x : Cell) : step ⟨offset, Opcode.negate.cell :: rest, x :: stack⟩ =
    .running ⟨offset + 1, rest, -x :: stack⟩ := by
  simp only [step, Instruction.fetch_negate, Instruction.span]

theorem step_operate (op : Operator) (left right : Cell) :
    step ⟨offset, (Opcode.operate op).cell :: rest, right :: left :: stack⟩ =
      .running ⟨offset + 1, rest, op.apply left right :: stack⟩ := by
  simp only [step, Instruction.fetch_operate, Instruction.span]

theorem step_halt (x : Cell) : step ⟨offset, Opcode.halt.cell :: rest, x :: stack⟩ =
    .stopped (.ok x) stack := by
  simp only [step, Instruction.fetch_halt]

theorem run_of_running (h : f.step = .running g) : f.run = g.run := by
  rw [run]
  split
  · rename_i h'
    cases h.symm.trans h'
    rfl
  · rename_i h'
    cases h.symm.trans h'

theorem run_of_stopped {result : Except RuntimeError Cell} (h : f.step = .stopped result stack) :
    f.run = (result, stack) := by
  rw [run]
  split
  · rename_i h'
    cases h.symm.trans h'
  · rename_i h'
    cases h.symm.trans h'
    rfl

def Steps : Frame → Frame → Prop := Relation.ReflTransGen fun f g => f.step = .running g

theorem Steps.single (h : f.step = .running g) : Steps f g := Relation.ReflTransGen.single h

theorem Steps.trans {f' : Frame} (h : Steps f g) (h' : Steps g f') : Steps f f' :=
  Relation.ReflTransGen.trans h h'

theorem Steps.run_eq (h : Steps f g) : f.run = g.run := by
  induction h with
  | refl => rfl
  | tail _ hstep ih => exact ih.trans (run_of_running hstep)

end Frame

theorem Machine.execute_of_ne_nil {code : List Cell} (h : code ≠ []) (m : Machine) :
    m.execute code = ((Frame.run ⟨0, code, []⟩).1, ⟨(Frame.run ⟨0, code, []⟩).2⟩) := by
  cases code with
  | nil => exact absurd rfl h
  | cons => rfl

end StackCalc
