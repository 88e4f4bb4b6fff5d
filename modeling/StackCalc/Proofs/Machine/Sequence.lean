import StackCalc.Proofs.Machine.Heights

/-!
# Code after code

A program that is put behind another one is executed where the first runs off its end, on the stack that is left
there. Only the offsets in its errors tell that it does not stand alone. A cut between a push and its operand
is no such end: there the first cell behind the cut is the operand.
-/

namespace StackCalc

namespace Instruction

variable {x : Cell} {cells rest : List Cell} {i : Instruction}

theorem fetch_append (h : fetch x cells = (i, rest)) (hi : i ≠ .truncated) (after : List Cell) :
    fetch x (cells ++ after) = (i, rest ++ after) := by
  unfold fetch at h
  split at h
  case h_2 =>
    cases h
    exact absurd rfl hi
  all_goals
    rename_i hx
    cases h
    simp only [fetch, hx, List.cons_append]

theorem opcode_of_truncated (h : fetch x cells = (.truncated, rest)) :
    Opcode.ofCell? x = some .pushNumber ∧ cells = [] := by
  unfold fetch at h
  split at h
  case h_2 hx => exact ⟨hx, rfl⟩
  all_goals cases h

end Instruction

namespace RuntimeError

def later (n : Nat) : RuntimeError → RuntimeError
  | stackUnderflow offset => stackUnderflow (offset + n)
  | unknownOpcode cell offset => unknownOpcode cell (offset + n)
  | missingOperand offset => missingOperand (offset + n)
  | e => e

end RuntimeError

namespace Frame

open Instruction (fetch decode)

variable {x : Cell} {cells rest stack after : List Cell} {i : Instruction} {offset : Nat}

theorem step_append (offset : Nat) (h : fetch x cells = (i, rest)) (hi : i ≠ .truncated) (stack after : List Cell) :
    step ⟨offset, x :: (cells ++ after), stack⟩ =
      match step ⟨offset, x :: cells, stack⟩ with
      | .running g => .running ⟨g.offset, g.rest ++ after, g.stack⟩
      | .stopped result left => .stopped result left := by
  simp only [step, h, Instruction.fetch_append h hi after]
  split <;> rfl

theorem step_later (n offset : Nat) (cells stack : List Cell) : step ⟨offset + n, cells, stack⟩ =
    match step ⟨offset, cells, stack⟩ with
    | .running g => .running ⟨g.offset + n, g.rest, g.stack⟩
    | .stopped result left => .stopped (result.mapError (·.later n)) left := by
  cases cells with
  | nil => rfl
  | cons x cells =>
    simp only [step]
    split <;> simp [Except.mapError, RuntimeError.later, Nat.add_right_comm]

theorem run_later (n offset : Nat) (cells stack : List Cell) : run ⟨offset + n, cells, stack⟩ =
    ((run ⟨offset, cells, stack⟩).1.mapError (·.later n), (run ⟨offset, cells, stack⟩).2) := by
  have hstep := step_later n offset cells stack
  cases hs : step ⟨offset, cells, stack⟩ with
  | running g =>
    rw [hs] at hstep
    have hlt := step_rest_length hs
    rw [run_of_running hstep, run_of_running hs]
    exact run_later n g.offset g.rest g.stack
  | stopped result left =>
    rw [hs] at hstep
    rw [run_of_stopped hstep, run_of_stopped hs]
termination_by cells.length

theorem run_eq_later (n : Nat) (cells stack : List Cell) : run ⟨n, cells, stack⟩ =
    ((run ⟨0, cells, stack⟩).1.mapError (·.later n), (run ⟨0, cells, stack⟩).2) := by
  rw [← run_later, Nat.zero_add]

/-- How a run that has come to the end of its code, at `stop`, goes on if there is more code. -/
def resume (stop : Nat) (after : List Cell) :
    Except RuntimeError Cell × List Cell → Except RuntimeError Cell × List Cell
  | (.error .missingHalt, left) => run ⟨stop, after, left⟩
  | (.error (.missingOperand offset), left) =>
    match after with
    | [] => (.error (.missingOperand offset), left)
    | operand :: after => run ⟨stop + 1, after, operand :: left⟩
  | ended => ended

theorem resume_eq_self {stop : Nat} {result : Except RuntimeError Cell} (hhalt : result ≠ .error .missingHalt)
    (hoperand : ∀ offset, result ≠ .error (.missingOperand offset)) :
    resume stop after (result, stack) = (result, stack) := by
  unfold resume
  split
  · simp_all
  · simp_all
  · rfl

theorem resume_of_fault {stop height : Nat} {e : RuntimeError} (h : i.fault? offset height = some e)
    (hi : i ≠ .truncated) : resume stop after (.error e, stack) = (.error e, stack) := by
  apply resume_eq_self
  · rintro ⟨⟩
    cases i <;> simp [Instruction.fault?] at h
  · rintro offset' ⟨⟩
    cases i <;> simp_all [Instruction.fault?]

theorem run_push {operand : Cell} (hx : Opcode.ofCell? x = some .pushNumber) :
    run ⟨offset, x :: operand :: cells, stack⟩ = run ⟨offset + 2, cells, operand :: stack⟩ := by
  apply run_of_running
  simp only [step, Instruction.fetch_push hx, Instruction.span]

theorem run_append (offset : Nat) (cells stack after : List Cell) : run ⟨offset, cells ++ after, stack⟩ =
    resume (offset + cells.length) after (run ⟨offset, cells, stack⟩) := by
  -- Over the instructions of `cells`: up to their end both runs make the same steps.
  fun_induction decode offset cells generalizing stack with
  | case1 offset =>
    have hstep : step ⟨offset, [], stack⟩ = .stopped (.error .missingHalt) stack := rfl
    rw [run_of_stopped hstep]
    rfl
  | case2 offset x cells next ih =>
    have hfetch : fetch x cells = (next.1, next.2) := rfl
    by_cases hi : next.1 = .truncated
    · -- What stands behind the cut belongs to the push in front of it.
      rw [hi] at hfetch
      obtain ⟨hx, rfl⟩ := Instruction.opcode_of_truncated hfetch
      have hstep : step ⟨offset, [x], stack⟩ = .stopped (.error (.missingOperand offset)) stack := by
        simp only [step, hfetch]
      rw [run_of_stopped hstep]
      cases after with
      | nil => exact run_of_stopped hstep
      | cons operand after => exact run_push hx
    · have happend := step_append offset hfetch hi stack after
      rcases step_cases offset stack hfetch with
        ⟨e, left, hfault, hstep⟩ | ⟨y, left, -, -, -, hstep⟩ | ⟨left, -, -, -, hstep⟩
      · rw [hstep] at happend
        rw [List.cons_append, run_of_stopped happend, run_of_stopped hstep, resume_of_fault hfault hi]
      · rw [hstep] at happend
        rw [List.cons_append, run_of_stopped happend, run_of_stopped hstep]
        rfl
      · rw [hstep] at happend
        have hlength : offset + (x :: cells).length = offset + next.1.span + next.2.length := by
          have := (Instruction.fetch_length hfetch).resolve_right fun h => hi h.1
          simp only [List.length_cons]
          omega
        rw [List.cons_append, run_of_running happend, run_of_running hstep, hlength]
        exact ih left

end Frame

namespace Machine

open StackCalc.Frame (run)

variable {code after stack : List Cell} {result : Except RuntimeError Cell} {m : Machine}

theorem execute_eq_iff (hcode : code ≠ []) :
    m.execute code = (result, ⟨stack⟩) ↔ run ⟨0, code, []⟩ = (result, stack) := by
  rw [execute_of_ne_nil hcode]
  simp [Prod.ext_iff]

theorem execute_append (hcode : code ≠ []) (m : Machine) :
    (∀ result stack, m.execute code = (result, ⟨stack⟩) → result ≠ .error .missingHalt →
      (∀ offset, result ≠ .error (.missingOperand offset)) →
      ∀ after, m.execute (code ++ after) = (result, ⟨stack⟩)) ∧
    (∀ stack, m.execute code = (.error .missingHalt, ⟨stack⟩) → ∀ after, m.execute (code ++ after) =
      ((run ⟨0, after, stack⟩).1.mapError (·.later code.length), ⟨(run ⟨0, after, stack⟩).2⟩)) ∧
    ∀ offset stack, m.execute code = (.error (.missingOperand offset), ⟨stack⟩) →
      ∀ operand after, m.execute (code ++ operand :: after) =
        ((run ⟨0, after, operand :: stack⟩).1.mapError (·.later (code.length + 1)),
          ⟨(run ⟨0, after, operand :: stack⟩).2⟩) := by
  have happend (after : List Cell) : code ++ after ≠ [] := by simp [hcode]
  refine ⟨?_, ?_, ?_⟩
  · intro result stack h hhalt hoperand after
    rw [execute_eq_iff hcode] at h
    rw [execute_eq_iff (happend after), Frame.run_append, h, Frame.resume_eq_self hhalt hoperand]
  · intro stack h after
    rw [execute_eq_iff hcode] at h
    rw [execute_eq_iff (happend after), Frame.run_append, h, Nat.zero_add]
    exact Frame.run_eq_later code.length after stack
  · intro offset stack h operand after
    rw [execute_eq_iff hcode] at h
    rw [execute_eq_iff (happend (operand :: after)), Frame.run_append, h, Nat.zero_add]
    exact Frame.run_eq_later (code.length + 1) after (operand :: stack)

/-- Code that is cut behind two pushes, behind its halt, and between a push and its operand. -/
theorem execute_append_sums :
    let m : Machine := ⟨[Cell.nan]⟩
    let two := Cell.ofNat 2
    let sums := [(Opcode.operate .sum).cell, (Opcode.operate .sum).cell]
    let pushes := [Opcode.pushNumber.cell, two, Opcode.pushNumber.cell, Opcode.halt.cell]
    let halted := [Opcode.pushNumber.cell, two, Opcode.halt.cell]
    let cut := [Opcode.pushNumber.cell, two, Opcode.pushNumber.cell]
    m.execute pushes = (.error .missingHalt, ⟨[Opcode.halt.cell, two]⟩) ∧
      m.execute (pushes ++ sums) = (.error (.stackUnderflow 5), ⟨[]⟩) ∧
      m.execute halted = (.ok two, ⟨[]⟩) ∧ m.execute (halted ++ sums) = (.ok two, ⟨[]⟩) ∧
      m.execute cut = (.error (.missingOperand 2), ⟨[two]⟩) ∧
      m.execute (cut ++ two :: sums) = (.error (.stackUnderflow 5), ⟨[]⟩) := by
  intro m two sums pushes halted cut
  have hpushes : m.execute pushes = (.error .missingHalt, ⟨[Opcode.halt.cell, two]⟩) := by
    rw [execute_eq_iff (by decide +kernel)]
    decide +kernel
  have hhalted : m.execute halted = (.ok two, ⟨[]⟩) := by
    rw [execute_eq_iff (by decide +kernel)]
    decide +kernel
  have hcut : m.execute cut = (.error (.missingOperand 2), ⟨[two]⟩) := by
    rw [execute_eq_iff (by decide +kernel)]
    decide +kernel
  have hsums (first second : Cell) : run ⟨0, sums, [first, second]⟩ = (.error (.stackUnderflow 1), []) := by
    rw [Frame.run_of_running (Frame.step_operate .sum second first)]
    apply Frame.run_of_stopped
    simp only [Frame.step, Instruction.fetch_operate]
  refine ⟨hpushes, ?_, hhalted, ?_, hcut, ?_⟩
  · rw [(execute_append (List.cons_ne_nil _ _) m).2.1 _ hpushes sums, hsums]
    rfl
  · exact (execute_append (List.cons_ne_nil _ _) m).1 _ _ hhalted (by simp) (by simp) sums
  · rw [(execute_append (List.cons_ne_nil _ _) m).2.2 _ _ hcut two sums, hsums]
    rfl

end Machine

end StackCalc
