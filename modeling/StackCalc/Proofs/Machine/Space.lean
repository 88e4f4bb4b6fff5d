import Mathlib.Control.Monad.Basic
import Mathlib.Logic.Relation
import StackCalc.Proofs.Machine.Steps
import StackCalc.Proofs.Parsing.Language

/-!
# The stack that code takes

The code of a tree is executed on operands of its own: the machine would make the same steps if nothing lay below
them. There are never more of them than the tree needs expressions to be open at once, so compiled code keeps to
the nesting limit, of which the machine knows nothing.
-/

namespace StackCalc

namespace Frame

variable {f g last : Frame} {base : List Cell} {height height' : Nat} {x : Cell}

section Above

def onto (f : Frame) (base : List Cell) : Frame := { f with stack := f.stack ++ base }

theorem onto_append (f : Frame) (top base : List Cell) : f.onto (top ++ base) = (f.onto top).onto base := by
  simp [onto]

theorem step_onto (h : f.step = .running g) (base : List Cell) : (f.onto base).step = .running (g.onto base) := by
  obtain ⟨offset, cells, stack⟩ := f
  cases cells with
  | nil => cases h
  | cons x cells =>
    simp only [step, onto] at h ⊢
    split at h
    case h_1 hi | h_2 hi | h_3 hi =>
      cases h
      simp only [hi, List.cons_append]
    all_goals cases h

/-- A step with operands on top of `base`, no more than `height`: the machine makes it with these alone. -/
inductive StepAbove (base : List Cell) (height : Nat) : Frame → Frame → Prop where
  | step {f g : Frame} : f.step = .running g → f.stack.length ≤ height →
    StepAbove base height (f.onto base) (g.onto base)

theorem StepAbove.running (h : StepAbove base height f g) : f.step = .running g := by
  cases h with
  | step h _ => exact step_onto h base

theorem StepAbove.length_le (h : StepAbove base height f g) : f.stack.length ≤ height + base.length := by
  cases h with
  | step _ hheight => simpa [onto] using hheight

theorem StepAbove.mono (hle : height ≤ height') (h : StepAbove base height f g) : StepAbove base height' f g := by
  cases h with
  | step h hheight => exact .step h (Nat.le_trans hheight hle)

theorem StepAbove.lower (h : StepAbove (x :: base) height f g) : StepAbove base (1 + height) f g := by
  cases h with
  | @step f g h hheight =>
    have honto (f : Frame) : f.onto (x :: base) = (f.onto [x]).onto base := f.onto_append [x] base
    have hlength : (f.onto [x]).stack.length ≤ 1 + height := by
      simp only [onto, List.length_append, List.length_singleton]
      omega
    rw [honto, honto]
    exact .step (step_onto h [x]) hlength

def StepsAbove (base : List Cell) (height : Nat) : Frame → Frame → Prop :=
  Relation.ReflTransGen (StepAbove base height)

namespace StepsAbove

theorem trans {f' : Frame} (h : StepsAbove base height f g) (h' : StepsAbove base height g f') :
    StepsAbove base height f f' :=
  Relation.ReflTransGen.trans h h'

theorem mono (hle : height ≤ height') (h : StepsAbove base height f g) : StepsAbove base height' f g :=
  Relation.ReflTransGen.mono (fun _ _ => StepAbove.mono hle) f g h

theorem lower (h : StepsAbove (x :: base) height f g) : StepsAbove base (1 + height) f g :=
  Relation.ReflTransGen.mono (fun _ _ => StepAbove.lower) f g h

theorem steps (h : StepsAbove base height f g) : Steps f g :=
  Relation.ReflTransGen.mono (fun _ _ => StepAbove.running) f g h

end StepsAbove

end Above

section Ends

theorem running_unique {g' : Frame} (h : f.step = .running g) (h' : f.step = .running g') : g = g' := by
  cases h.symm.trans h'
  rfl

theorem StepsAbove.length_le_of_steps (h : StepsAbove base height f last) (hlast : ∀ g, last.step ≠ .running g)
    (hheight : last.stack.length ≤ height + base.length) (hg : Steps f g) :
    g.stack.length ≤ height + base.length := by
  induction h using Relation.ReflTransGen.head_induction_on with
  | refl =>
    cases hg.cases_head with
    | inl heq => rwa [← heq]
    | inr hstep =>
      obtain ⟨next, hstep, -⟩ := hstep
      exact absurd hstep (hlast next)
  | head hstep _ ih =>
    -- A frame makes one step, so `g` is the first frame of the run or comes after its first step.
    rcases hg.cases_head with rfl | ⟨next, hnext, hrest⟩
    · exact hstep.length_le
    · cases running_unique hstep.running hnext
      exact ih hrest

theorem Steps.last_unique {last' : Frame} (h : Steps f last) (hlast : ∀ g, last.step ≠ .running g)
    (h' : Steps f last') (hlast' : ∀ g, last'.step ≠ .running g) : last' = last := by
  have hunique : Relator.RightUnique fun f g : Frame => f.step = .running g := fun _ _ _ => running_unique
  rcases Relation.ReflTransGen.total_of_right_unique hunique h h' with h | h
  · rcases h.cases_head with heq | ⟨g, hg, -⟩
    · exact heq.symm
    · exact absurd hg (hlast g)
  · rcases h.cases_head with heq | ⟨g, hg, -⟩
    · exact heq
    · exact absurd hg (hlast' g)

def AtHalt (f : Frame) : Prop := ∃ x rest, f.rest = x :: rest ∧ Opcode.ofCell? x = some .halt

theorem AtHalt.step_ne_running (h : f.AtHalt) (g : Frame) : f.step ≠ .running g := by
  obtain ⟨offset, cells, stack⟩ := f
  obtain ⟨x, rest, rfl, hx⟩ := h
  have hfetch : Instruction.fetch x rest = (.halt, rest) := by simp only [Instruction.fetch, hx]
  cases stack <;> simp [step, hfetch]

end Ends

end Frame

open StackCalc.Frame (StepsAbove Steps)

theorem Expr.stepsAbove_code (e : Expr) (offset : Nat) (rest base : List Cell) :
    StepsAbove base e.need ⟨offset, e.code ++ rest, base⟩ ⟨offset + e.code.length, rest, e.value :: base⟩ := by
  induction e generalizing offset rest base with
  | number m x =>
    exact .single (.step (f := ⟨offset, Opcode.pushNumber.cell :: x :: rest, []⟩) (Frame.step_pushNumber x)
      (Nat.zero_le 1))
  | group opening e closing ih => exact (ih offset rest base).mono (Nat.le_add_left e.need 1)
  | negation m e ih =>
    simp only [code_negation, value, List.append_assoc, List.length_append, ← Nat.add_assoc]
    apply ((ih offset ([Opcode.negate.cell] ++ rest) base).mono (Nat.le_add_left e.need 1)).trans
    exact .single (.step (f := ⟨_, Opcode.negate.cell :: rest, [e.value]⟩) (Frame.step_negate e.value)
      (Nat.le_add_right 1 e.need))
  | binary op m l r ihl ihr =>
    -- While `r` is executed the value of `l` lies below its operands; counted among them it makes one more.
    have htwo : 2 ≤ 1 + r.need := Nat.add_le_add_left r.need_pos 1
    simp only [code_binary, value, need, List.append_assoc, List.length_append, ← Nat.add_assoc]
    apply ((ihl offset (r.code ++ ([(Opcode.operate op).cell] ++ rest)) base).mono (Nat.le_max_left ..)).trans
    apply ((ihr (offset + l.code.length) ([(Opcode.operate op).cell] ++ rest) (l.value :: base)).lower.mono
      (Nat.le_max_right ..)).trans
    exact .single (.step (f := ⟨_, (Opcode.operate op).cell :: rest, [r.value, l.value]⟩)
      (Frame.step_operate op l.value r.value) (Nat.le_trans htwo (Nat.le_max_right ..)))

namespace Compiler

theorem steps_within_maxDepth {ts : List Token} {chunk : Chunk} (hc : compile ts = .ok chunk) :
    ∃ last : Frame, Steps ⟨0, chunk.code.toList, []⟩ last ∧ last.stack.length = 1 ∧
      ∀ f : Frame, Steps ⟨0, chunk.code.toList, []⟩ f →
        f.stack.length ≤ maxDepth ∧ (f.AtHalt ↔ f = last) ∧
          ∀ m : Machine, m.execute chunk.code.toList = (f.run.1, ⟨f.run.2⟩) := by
  obtain ⟨e, he⟩ := heads_of_compileWithin hc
  have hneed : e.need ≤ maxDepth := he.need_le _ rfl
  rw [code_of_compileWithin he hc]
  let last : Frame := ⟨0 + e.code.length, [Opcode.halt.cell], [e.value]⟩
  have hlast : last.AtHalt := ⟨Opcode.halt.cell, [], rfl, Opcode.ofCell?_cell .halt⟩
  have habove : StepsAbove [] e.need ⟨0, e.code ++ [Opcode.halt.cell], []⟩ last := e.stepsAbove_code 0 _ []
  refine ⟨last, habove.steps, rfl, ?_⟩
  intro f hf
  refine ⟨?_, ⟨?_, ?_⟩, ?_⟩
  · exact Nat.le_trans (habove.length_le_of_steps hlast.step_ne_running e.need_pos hf) hneed
  · intro hhalt
    exact habove.steps.last_unique hlast.step_ne_running hf hhalt.step_ne_running
  · rintro rfl
    exact hlast
  · intro m
    rw [Machine.execute_of_ne_nil (by simp) m, hf.run_eq]

/-- Three operands wait before the first power is computed. -/
theorem steps_within_maxDepth_powers :
    let two := Cell.ofNat 2
    let push := Opcode.pushNumber.cell
    let power := (Opcode.operate .exponentiate).cell
    let ts : List Token := [⟨.number, "2", 1⟩, ⟨.starStar, "**", 1⟩, ⟨.number, "2", 1⟩, ⟨.starStar, "**", 1⟩,
      ⟨.number, "2", 1⟩]
    let chunk : Chunk :=
      ⟨#[push, two, push, two, push, two, power, power, Opcode.halt.cell], #[1, 1, 1, 1, 1, 1, 1, 1, 1]⟩
    let f : Frame := ⟨6, [power, power, Opcode.halt.cell], [two, two, two]⟩
    compile ts = .ok chunk ∧ Steps ⟨0, chunk.code.toList, []⟩ f ∧ f.stack.length ≤ maxDepth ∧ ¬f.AtHalt := by
  intro two push power ts chunk f
  have hc : compile ts = .ok chunk := by decide +kernel
  have hf : Steps ⟨0, chunk.code.toList, []⟩ f :=
    ((Steps.single (Frame.step_pushNumber two)).trans (.single (Frame.step_pushNumber two))).trans
      (.single (Frame.step_pushNumber two))
  obtain ⟨last, -, hlast, hsteps⟩ := steps_within_maxDepth hc
  obtain ⟨hheight, hhalt, -⟩ := hsteps f hf
  refine ⟨hc, hf, hheight, ?_⟩
  rw [hhalt]
  rintro rfl
  cases hlast

end Compiler

end StackCalc
