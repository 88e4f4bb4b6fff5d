import StackCalc.Error
import StackCalc.Instruction

/-!
# The stack machine

A machine is its operand stack. `Frame.step` executes one instruction, `Frame.run` all of them, and
`Machine.execute` runs a program from its start on an empty stack.
-/

namespace StackCalc

/-- A program under execution: what is left of its code, where that begins, and the operands. -/
structure Frame where
  offset : Nat
  rest : List Cell
  stack : List Cell

inductive Progress where
  | running (next : Frame)
  | stopped (result : Except RuntimeError Cell) (stack : List Cell)

namespace Frame

/-- An instruction that finds too few operands has taken those that were there. -/
def step (f : Frame) : Progress :=
  match f.rest with
  | [] => .stopped (.error .missingHalt) f.stack
  | x :: rest =>
    let (instruction, rest) := Instruction.fetch x rest
    let goOn (stack : List Cell) : Progress := .running ⟨f.offset + instruction.span, rest, stack⟩
    match instruction, f.stack with
    | .push value, stack => goOn (value :: stack)
    | .negate, x :: stack => goOn (-x :: stack)
    | .operate op, right :: left :: stack => goOn (op.apply left right :: stack)
    | .halt, result :: stack => .stopped (.ok result) stack
    | .truncated, stack => .stopped (.error (.missingOperand f.offset)) stack
    | .unknown cell, stack => .stopped (.error (.unknownOpcode cell f.offset)) stack
    | _, _ => .stopped (.error (.stackUnderflow f.offset)) []

theorem step_rest_length {f g : Frame} (h : f.step = .running g) : g.rest.length < f.rest.length := by
  unfold step at h
  split at h
  · cases h
  · rename_i x rest hrest
    have := Instruction.fetch_length_le x rest
    simp only at h
    split at h <;> cases h <;> simp [hrest] <;> omega

def run (f : Frame) : Except RuntimeError Cell × List Cell :=
  match _h : f.step with
  | .running g => g.run
  | .stopped result stack => (result, stack)
termination_by f.rest.length
decreasing_by exact step_rest_length _h

end Frame

structure Machine where
  stack : List Cell := []

/-- A program without cells is refused before the stack is touched. -/
def Machine.execute (m : Machine) (code : List Cell) : Except RuntimeError Cell × Machine :=
  match code with
  | [] => (.error .emptyCode, m)
  | code =>
    let (result, stack) := Frame.run ⟨0, code, []⟩
    (result, ⟨stack⟩)

def execute (code : List Cell) : Except RuntimeError Cell := (Machine.execute {} code).1

end StackCalc
