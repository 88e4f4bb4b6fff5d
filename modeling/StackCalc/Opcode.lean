import StackCalc.Operator

/-!
# Opcodes

An opcode stands in code as the cell of its number.
-/

namespace StackCalc

inductive Opcode where
  | pushNumber | negate
  | operate (op : Operator)
  | halt
deriving DecidableEq, Repr

namespace Opcode

def all : List Opcode :=
  [pushNumber, negate, operate .sum, operate .subtract, operate .multiply, operate .divide,
    operate .modulo, operate .exponentiate, halt]

def number (op : Opcode) : Nat := all.idxOf op

def cell (op : Opcode) : Cell := Cell.ofNat op.number

/-- Only a whole number from zero to eight is looked up; a negative zero is one of them. -/
@[irreducible] def ofCell? (x : Cell) : Option Opcode :=
  if x.fract.equals .zero ∧ Cell.zero ≤ x ∧ x ≤ .ofNat 8 then all[x.toUInt8.toNat]? else none

def mnemonic : Opcode → String
  | pushNumber => "PUSH_NUMBER"
  | negate => "NEGATE"
  | operate .sum => "SUM"
  | operate .subtract => "SUBTRACT"
  | operate .multiply => "MULTIPLY"
  | operate .divide => "DIVIDE"
  | operate .modulo => "MODULO"
  | operate .exponentiate => "EXPONENTIATE"
  | halt => "HALT"

end Opcode

end StackCalc
