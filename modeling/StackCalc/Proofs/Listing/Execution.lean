import StackCalc.Proofs.Listing.Rows

/-!
# Rows and execution

A machine goes down the rows of the listing of its code: it meets the instructions that the rows show, one
after the other, and ends at a halt, at an instruction that fails, or below the last row.
-/

namespace StackCalc

open Instruction (Tile decode fetch)

namespace Frame

/-- The instructions that a run executes or fails to execute, with their offsets. -/
def met (f : Frame) : List (Nat × Instruction) :=
  match f.rest with
  | [] => []
  | x :: cells =>
    (f.offset, (fetch x cells).1) ::
      match _h : f.step with
      | .running g => g.met
      | .stopped _ _ => []
termination_by f.rest.length
decreasing_by exact step_rest_length _h

inductive Ends (listed met : List (Nat × Instruction)) : Except RuntimeError Cell → Prop where
  | below : met = listed → Ends listed met (.error .missingHalt)
  | halted {offset result} : met.getLast? = some (offset, .halt) → Ends listed met (.ok result)
  | failed {offset i height e} : met.getLast? = some (offset, i) → i.fault? offset height = some e →
    Ends listed met (.error e)

structure Follows (listed met : List (Nat × Instruction)) (result : Except RuntimeError Cell) : Prop where
  initial : met <+: listed
  goesOn : ∀ p ∈ met.dropLast, p.2 ≠ .halt
  ends : Ends listed met result

section Follows

variable {listed met : List (Nat × Instruction)} {p : Nat × Instruction} {result : Except RuntimeError Cell}

theorem Ends.cons (h : Ends listed met result) : Ends (p :: listed) (p :: met) result := by
  have hlast {q : Nat × Instruction} (hq : met.getLast? = some q) : (p :: met).getLast? = some q := by
    rw [List.getLast?_cons, hq]
    rfl
  cases h with
  | below hmet => exact .below (congrArg _ hmet)
  | halted hq => exact .halted (hlast hq)
  | failed hq hfault => exact .failed (hlast hq) hfault

theorem Follows.cons (h : Follows listed met result) (hp : p.2 ≠ .halt) :
    Follows (p :: listed) (p :: met) result := by
  refine ⟨(List.prefix_cons_inj p).mpr h.initial, ?_, h.ends.cons⟩
  intro q hq
  cases met with
  | nil => cases hq
  | cons first met =>
    rcases List.mem_cons.mp hq with rfl | hq
    · exact hp
    · exact h.goesOn q hq

theorem Follows.last (h : Ends (p :: listed) [p] result) : Follows (p :: listed) [p] result :=
  ⟨⟨listed, rfl⟩, by simp, h⟩

end Follows

section Met

variable {offset : Nat} {x : Cell} {cells stack left : List Cell}

theorem met_nil : met ⟨offset, [], stack⟩ = [] := by
  rw [met]

theorem met_of_stopped {result : Except RuntimeError Cell}
    (h : step ⟨offset, x :: cells, stack⟩ = .stopped result left) :
    met ⟨offset, x :: cells, stack⟩ = [(offset, (fetch x cells).1)] := by
  rw [met]
  dsimp only
  split
  · rename_i hstep
    cases h.symm.trans hstep
  · rfl

theorem met_of_running {g : Frame} (h : step ⟨offset, x :: cells, stack⟩ = .running g) :
    met ⟨offset, x :: cells, stack⟩ = (offset, (fetch x cells).1) :: g.met := by
  rw [met]
  dsimp only
  split
  · rename_i hstep
    cases h.symm.trans hstep
    rfl
  · rename_i hstep
    cases h.symm.trans hstep

theorem follows_decode (offset : Nat) (cells stack : List Cell) :
    Follows (decode offset cells) (met ⟨offset, cells, stack⟩) (run ⟨offset, cells, stack⟩).1 := by
  fun_induction decode offset cells generalizing stack with
  | case1 offset =>
    have hstep : step ⟨offset, [], stack⟩ = .stopped (.error .missingHalt) stack := rfl
    rw [met_nil, run_of_stopped hstep]
    exact ⟨List.prefix_rfl, by simp, .below rfl⟩
  | case2 offset x cells next ih =>
    have hfetch : fetch x cells = (next.1, next.2) := rfl
    rcases step_cases offset stack hfetch with
      ⟨e, left, hfault, hstep⟩ | ⟨y, left, -, hi, -, hstep⟩ | ⟨left, -, hi, -, hstep⟩
    · rw [met_of_stopped hstep, run_of_stopped hstep]
      exact .last (.failed rfl hfault)
    · rw [met_of_stopped hstep, run_of_stopped hstep]
      exact .last (.halted (congrArg (fun i => some (offset, i)) hi))
    · rw [met_of_running hstep, run_of_running hstep]
      exact (ih left).cons hi

end Met

end Frame

example : Listing.ofCells [Opcode.pushNumber.cell, Opcode.halt.cell, Cell.ofNat 9, Opcode.pushNumber.cell] =
    "== <bytecode> ==\n0000    ? PUSH_NUMBER  8\n0002    ? UNKNOWN      9\n" ++
      "0003    ? PUSH_NUMBER  <missing operand>\n" := by
  decide +kernel

end StackCalc
