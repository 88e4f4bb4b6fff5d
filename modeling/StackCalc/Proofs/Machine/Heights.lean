import Mathlib.Control.Monad.Basic
import StackCalc.Proofs.Machine.Steps

/-!
# Heights of the stack

How a program ends does not depend on the numbers in it. A walk over its instructions that knows of the
stack only how high it is tells whether the program halts well, on what height, and if not at which
instruction it fails and how.
-/

namespace StackCalc

namespace Instruction

def takes : Instruction → Nat
  | negate | halt => 1
  | operate _ => 2
  | push _ | truncated | unknown _ => 0

def fault? (offset height : Nat) : Instruction → Option RuntimeError
  | unknown cell => some (.unknownOpcode cell offset)
  | truncated => some (.missingOperand offset)
  | i => if height < i.takes then some (.stackUnderflow offset) else none

/-- Goes over instructions until one has a fault or halts, and answers the height that a halt leaves.
All other instructions put one operand where they have taken theirs. -/
def walk (height : Nat) : List (Nat × Instruction) → Except RuntimeError Nat
  | [] => .error .missingHalt
  | (offset, i) :: rest =>
    match i.fault? offset height with
    | some e => .error e
    | none => if i = halt then .ok (height - 1) else walk (height - i.takes + 1) rest

section Walk

variable {offset height : Nat} {i : Instruction} {rest : List (Nat × Instruction)}

theorem walk_of_fault {e : RuntimeError} (h : i.fault? offset height = some e) :
    walk height ((offset, i) :: rest) = .error e := by
  simp only [walk, h]

theorem walk_halt (h : halt.fault? offset height = none) :
    walk height ((offset, halt) :: rest) = .ok (height - 1) := by
  simp only [walk, h, ↓reduceIte]

theorem walk_of_runs (h : i.fault? offset height = none) (hi : i ≠ halt) :
    walk height ((offset, i) :: rest) = walk (height - i.takes + 1) rest := by
  simp only [walk, h, if_neg hi]

end Walk

section Decode

variable {offset start : Nat} {i : Instruction} {x : Cell} {cells rest : List Cell}

theorem decode_cons (h : fetch x cells = (i, rest)) :
    decode offset (x :: cells) = (offset, i) :: decode (offset + i.span) rest := by
  rw [decode, h]

theorem fetch_rest (h : fetch x cells = (i, rest)) : rest = (x :: cells).drop i.span := by
  unfold fetch at h
  split at h <;> cases h <;> rfl

theorem fetch_length (h : fetch x cells = (i, rest)) :
    rest.length + i.span = cells.length + 1 ∨ i = .truncated ∧ cells = [] := by
  unfold fetch at h
  split at h
  case h_2 =>
    cases h
    exact .inr ⟨rfl, rfl⟩
  all_goals
    cases h
    exact .inl rfl

theorem span_pos (i : Instruction) : 0 < i.span := by
  cases i <;> exact Nat.zero_lt_succ _

theorem exists_of_mem_decode (h : (offset, i) ∈ decode start cells) :
    ∃ n x rest, offset = start + n ∧ cells.drop n = x :: rest ∧ (fetch x rest).1 = i := by
  fun_induction decode start cells with
  | case1 => cases h
  | case2 start x cells step ih =>
    rcases List.mem_cons.mp h with hhead | htail
    · cases hhead
      exact ⟨0, x, cells, rfl, rfl, rfl⟩
    · obtain ⟨n, x', rest, rfl, hdrop, hfetch⟩ := ih htail
      refine ⟨step.1.span + n, x', rest, Nat.add_assoc .., ?_, hfetch⟩
      have hrest : step.2 = (x :: cells).drop step.1.span := fetch_rest rfl
      rwa [hrest, List.drop_drop] at hdrop

end Decode

end Instruction

namespace Frame

open Instruction (fault? takes walk decode fetch)

variable {x : Cell} {cells rest : List Cell} {i : Instruction}

theorem step_cases (offset : Nat) (stack : List Cell) (h : fetch x cells = (i, rest)) :
    (∃ e left, i.fault? offset stack.length = some e ∧
      step ⟨offset, x :: cells, stack⟩ = .stopped (.error e) left) ∨
    (∃ y left, i.fault? offset stack.length = none ∧ i = .halt ∧ left.length = stack.length - 1 ∧
      step ⟨offset, x :: cells, stack⟩ = .stopped (.ok y) left) ∨
    ∃ left, i.fault? offset stack.length = none ∧ i ≠ .halt ∧ left.length = stack.length - i.takes + 1 ∧
      step ⟨offset, x :: cells, stack⟩ = .running ⟨offset + i.span, rest, left⟩ := by
  simp only [step, h]
  cases i with
  | push value => exact .inr (.inr ⟨value :: stack, rfl, by simp, rfl, rfl⟩)
  | truncated => exact .inl ⟨_, stack, rfl, rfl⟩
  | unknown cell => exact .inl ⟨_, stack, rfl, rfl⟩
  | negate =>
    cases stack with
    | nil => exact .inl ⟨_, [], rfl, rfl⟩
    | cons y stack => exact .inr (.inr ⟨-y :: stack, rfl, by simp, rfl, rfl⟩)
  | operate op =>
    cases stack with
    | nil => exact .inl ⟨_, [], rfl, rfl⟩
    | cons right stack =>
      cases stack with
      | nil => exact .inl ⟨_, [], rfl, rfl⟩
      | cons left stack =>
        have hheight : ¬stack.length + 2 < 2 := by omega
        have hfault : fault? offset (right :: left :: stack).length (.operate op) = none := by
          simp only [fault?]
          exact if_neg hheight
        exact .inr (.inr ⟨op.apply left right :: stack, hfault, by simp, rfl, rfl⟩)
  | halt =>
    cases stack with
    | nil => exact .inl ⟨_, [], rfl, rfl⟩
    | cons y stack => exact .inr (.inl ⟨y, stack, rfl, rfl, rfl, rfl⟩)

theorem run_height (offset : Nat) (cells stack : List Cell) :
    ((run ⟨offset, cells, stack⟩).1.map fun _ => (run ⟨offset, cells, stack⟩).2.length) =
      walk stack.length (decode offset cells) := by
  fun_induction decode offset cells generalizing stack with
  | case1 offset =>
    have hstep : step ⟨offset, [], stack⟩ = .stopped (.error .missingHalt) stack := rfl
    rw [run_of_stopped hstep]
    rfl
  | case2 offset x cells next ih =>
    have hfetch : fetch x cells = (next.1, next.2) := rfl
    rcases step_cases offset stack hfetch with
      ⟨e, left, hfault, hstep⟩ | ⟨y, left, hfault, hi, hleft, hstep⟩ | ⟨left, hfault, hi, hleft, hstep⟩
    · rw [run_of_stopped hstep, Instruction.walk_of_fault hfault]
      rfl
    · rw [hi] at hfault ⊢
      rw [run_of_stopped hstep, Instruction.walk_halt hfault, ← hleft]
      rfl
    · rw [run_of_running hstep, Instruction.walk_of_runs hfault hi, ← hleft]
      exact ih left

end Frame

/-- Programs that are the same but for the operands of their pushes. -/
inductive SameSkeleton : List Cell → List Cell → Prop where
  | nil : SameSkeleton [] []
  | truncated {x} : Opcode.ofCell? x = some .pushNumber → SameSkeleton [x] [x]
  | push {x value value' cells cells'} : Opcode.ofCell? x = some .pushNumber → SameSkeleton cells cells' →
    SameSkeleton (x :: value :: cells) (x :: value' :: cells')
  | other {x cells cells'} : Opcode.ofCell? x ≠ some .pushNumber → SameSkeleton cells cells' →
    SameSkeleton (x :: cells) (x :: cells')

namespace Instruction

variable {offset height : Nat} {x value : Cell} {code code' cells : List Cell}

theorem fetch_push (h : Opcode.ofCell? x = some .pushNumber) : fetch x (value :: cells) = (push value, cells) := by
  simp only [fetch, h]

theorem exists_fetch_eq (h : Opcode.ofCell? x ≠ some .pushNumber) : ∃ i, ∀ cells, fetch x cells = (i, cells) := by
  cases hx : Opcode.ofCell? x with
  | none => exact ⟨unknown x, fun cells => by simp only [fetch, hx]⟩
  | some op =>
    cases op with
    | pushNumber => exact absurd hx h
    | negate => exact ⟨negate, fun cells => by simp only [fetch, hx]⟩
    | operate op => exact ⟨operate op, fun cells => by simp only [fetch, hx]⟩
    | halt => exact ⟨halt, fun cells => by simp only [fetch, hx]⟩

theorem walk_decode_eq (h : SameSkeleton code code') :
    walk height (decode offset code) = walk height (decode offset code') := by
  induction h generalizing offset height with
  | nil => rfl
  | truncated => rfl
  | push hx _ ih =>
    rw [decode_cons (fetch_push hx), decode_cons (fetch_push hx), walk_of_runs rfl (by simp),
      walk_of_runs rfl (by simp)]
    exact ih
  | other hx _ ih =>
    obtain ⟨i, hi⟩ := exists_fetch_eq hx
    rw [decode_cons (hi _), decode_cons (hi _)]
    simp only [walk, ih]

end Instruction

namespace Machine

open Instruction (walk decode fetch)

theorem execute_height (m : Machine) (x : Cell) (cells : List Cell) :
    ((m.execute (x :: cells)).1.map fun _ => (m.execute (x :: cells)).2.stack.length) =
      walk 0 (decode 0 (x :: cells)) :=
  Frame.run_height 0 (x :: cells) []

theorem execute_result_kind (m : Machine) (x : Cell) (cells : List Cell) :
    ((m.execute (x :: cells)).1.map fun _ => ()) = (walk 0 (decode 0 (x :: cells))).map fun _ => () := by
  rw [← execute_height m]
  cases (m.execute (x :: cells)).1 <;> rfl

theorem execute_eq_walk :
    (∀ (m : Machine) (x : Cell) (cells : List Cell),
      ((m.execute (x :: cells)).1.map fun _ => (m.execute (x :: cells)).2.stack.length) =
        walk 0 (decode 0 (x :: cells))) ∧
    (∀ code offset i, (offset, i) ∈ decode 0 code →
      ∃ x rest, code.drop offset = x :: rest ∧ (fetch x rest).1 = i) ∧
    ∀ (m m' : Machine) (code code' : List Cell), SameSkeleton code code' →
      ((m.execute code).1.map fun _ => ()) = (m'.execute code').1.map fun _ => () := by
  refine ⟨execute_height, ?_, ?_⟩
  · intro code offset i h
    obtain ⟨n, x, rest, rfl, hdrop, hfetch⟩ := Instruction.exists_of_mem_decode h
    rw [Nat.zero_add]
    exact ⟨x, rest, hdrop, hfetch⟩
  · intro m m' code code' h
    have hwalk : walk 0 (decode 0 code) = walk 0 (decode 0 code') := Instruction.walk_decode_eq h
    cases code with
    | nil =>
      cases h
      rfl
    | cons x cells =>
      obtain ⟨x', cells', rfl⟩ : ∃ x' cells', code' = x' :: cells' := by
        cases h <;> exact ⟨_, _, rfl⟩
      rw [execute_result_kind, execute_result_kind, hwalk]

/-- The operand is an opcode in one program and a NaN in the other. -/
theorem execute_eq_walk_underflow : let code (x : Cell) : List Cell :=
      [Opcode.pushNumber.cell, x, Opcode.negate.cell, (Opcode.operate .sum).cell, Opcode.halt.cell]
    let halt := code Opcode.halt.cell
    SameSkeleton halt (code Cell.nan) ∧ (3, .operate .sum) ∈ decode 0 halt ∧
      (∃ x rest, halt.drop 3 = x :: rest ∧ (fetch x rest).1 = .operate .sum) ∧
      ∀ m : Machine, ((m.execute halt).1.map fun _ => (m.execute halt).2.stack.length) = .error (.stackUnderflow 3) ∧
        ((m.execute halt).1.map fun _ => ()) = (m.execute (code Cell.nan)).1.map fun _ => () := by
  intro code halt
  obtain ⟨hwalk, hplace, hsame⟩ := execute_eq_walk
  have hskeleton : SameSkeleton halt (code Cell.nan) :=
    .push (by decide +kernel) (.other (by decide +kernel) (.other (by decide +kernel)
      (.other (by decide +kernel) .nil)))
  have hmem : (3, .operate .sum) ∈ decode 0 halt := by decide +kernel
  have hvalue : walk 0 (decode 0 halt) = .error (.stackUnderflow 3) := by decide +kernel
  exact ⟨hskeleton, hmem, hplace _ _ _ hmem, fun m => ⟨(hwalk m _ halt.tail).trans hvalue, hsame m m _ _ hskeleton⟩⟩

end Machine

end StackCalc
