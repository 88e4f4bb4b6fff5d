import StackCalc.Opcode

/-!
# Instructions

What the cells at one place of some code say. Any cells say something: a cell that is no opcode and
a push without operand are instructions of their own.
-/

namespace StackCalc

inductive Instruction where
  | push (value : Cell)
  /-- A push that is the last cell of its code. -/
  | truncated
  | negate
  | operate (op : Operator)
  | halt
  | unknown (cell : Cell)
deriving DecidableEq, Repr

namespace Instruction

def fetch (x : Cell) (rest : List Cell) : Instruction × List Cell :=
  match Opcode.ofCell? x, rest with
  | some .pushNumber, value :: rest => (push value, rest)
  | some .pushNumber, [] => (truncated, [])
  | some .negate, rest => (negate, rest)
  | some (.operate op), rest => (operate op, rest)
  | some .halt, rest => (halt, rest)
  | none, rest => (unknown x, rest)

theorem fetch_length_le (x : Cell) (rest : List Cell) : (fetch x rest).2.length ≤ rest.length := by
  unfold fetch
  split <;> simp

def span : Instruction → Nat
  | push _ | truncated => 2
  | _ => 1

def decode (offset : Nat) : List Cell → List (Nat × Instruction)
  | [] => []
  | x :: cells =>
    let step := fetch x cells
    (offset, step.1) :: decode (offset + step.1.span) step.2
termination_by cells => cells.length
decreasing_by exact Nat.lt_succ_of_le (fetch_length_le x cells)

end Instruction

end StackCalc
