import StackCalc.Proofs.Machine.Space

namespace StackCalc

theorem Machine.execute_code (m : Machine) (e : Expr) :
    m.execute (e.code ++ [Opcode.halt.cell]) = (.ok e.value, ⟨[]⟩) := by
  have hrun : Frame.run ⟨0, e.code ++ [Opcode.halt.cell], []⟩ = (.ok e.value, []) := by
    rw [(e.stepsAbove_code 0 [Opcode.halt.cell] []).steps.run_eq]
    exact Frame.run_of_stopped (Frame.step_halt e.value)
  rw [execute_of_ne_nil (by simp), hrun]

theorem execute_compile (ts : List Token) (chunk : Chunk) (hc : Compiler.compile ts = .ok chunk) :
    ∃ e : Expr, e.Heads (some Compiler.maxDepth) ts ∧
      ∀ m : Machine, m.execute chunk.code.toList = (.ok e.value, ⟨[]⟩) := by
  obtain ⟨e, he⟩ := Compiler.heads_of_compileWithin hc
  refine ⟨e, he, ?_⟩
  intro m
  rw [Compiler.code_of_compileWithin he hc]
  exact m.execute_code e

theorem execute_compile_remainder : ∃ chunk, Compiler.compile
      [⟨.number, "7", 1⟩, ⟨.percent, "%", 1⟩, ⟨.number, "4", 2⟩, ⟨.rightParen, ")", 2⟩] = .ok chunk ∧
    ∀ m : Machine, m.execute chunk.code.toList = (.ok ⟨0x4008000000000000⟩, ⟨[]⟩) := by
  let e : Expr := .binary .modulo ⟨"%", 1⟩ (.number ⟨"7", 1⟩ ⟨0x401c000000000000⟩)
    (.number ⟨"4", 2⟩ ⟨0x4010000000000000⟩)
  have he : e.Heads (some Compiler.maxDepth)
      [⟨.number, "7", 1⟩, ⟨.percent, "%", 1⟩, ⟨.number, "4", 2⟩, ⟨.rightParen, ")", 2⟩] := by
    refine ⟨?_, ?_, [⟨.rightParen, ")", 2⟩], rfl, ?_⟩
    · have hleft : Expr.Derives .operand (.number ⟨"7", 1⟩ ⟨0x401c000000000000⟩) :=
        .number (by decide +kernel)
      have hright : Expr.Derives .operand (.number ⟨"4", 2⟩ ⟨0x4010000000000000⟩) :=
        .number (by decide +kernel)
      exact .term (.product (.inr (.inr rfl)) (.factor (.operand hleft)) (.operand hright))
    · simp [e, Expr.need, Compiler.maxDepth]
    · simp only [List.head?_cons, Option.mem_some]
      rintro t rfl op hop
      cases op <;> cases hop
  have hc := Compiler.compileWithin_of_heads he
  obtain ⟨e', he', hrun⟩ := execute_compile _ _ hc
  refine ⟨_, hc, ?_⟩
  have hvalue : e.value = ⟨0x4008000000000000⟩ := by decide +kernel
  rwa [Compiler.heads_unique he he', hvalue] at hrun

end StackCalc
