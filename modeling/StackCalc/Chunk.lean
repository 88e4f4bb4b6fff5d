import StackCalc.Opcode

/-!
# Chunks

A chunk is code together with the source line of each of its cells. Every push is followed by its
operand, a cell like any other.
-/

namespace StackCalc

structure Chunk where
  code : Array Cell := #[]
  lines : Array Nat := #[]
deriving DecidableEq

namespace Chunk

def size (c : Chunk) : Nat := c.code.size

def isEmpty (c : Chunk) : Bool := c.code.isEmpty

def append (c : Chunk) (x : Cell) (line : Nat) : Chunk := ⟨c.code.push x, c.lines.push line⟩

def push (c : Chunk) (op : Opcode) (line : Nat) : Chunk := c.append op.cell line

def pushNumber (c : Chunk) (x : Cell) (line : Nat) : Chunk := (c.push .pushNumber line).append x line

@[simp] theorem code_append (c : Chunk) (x : Cell) (line : Nat) :
    (c.append x line).code.toList = c.code.toList ++ [x] := Array.toList_push ..

@[simp] theorem lines_append (c : Chunk) (x : Cell) (line : Nat) :
    (c.append x line).lines.toList = c.lines.toList ++ [line] := Array.toList_push ..

/-- Adds an instruction and answers the offset at which it begins. -/
def emit (op : Opcode) (line : Nat) : StateM Chunk Nat :=
  modifyGet fun c => (c.size, c.push op line)

def emitNumber (x : Cell) (line : Nat) : StateM Chunk Nat :=
  modifyGet fun c => (c.size, c.pushNumber x line)

end Chunk

end StackCalc
