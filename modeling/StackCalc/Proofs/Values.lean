import StackCalc.CommandLine
import StackCalc.Proofs.Machine.Meaning
import StackCalc.Proofs.Scanning.Tokens

namespace StackCalc

variable {source : String} {ts : List Token} {e : Expr} {x : Cell}

theorem exists_chunk_of_heads (ht : tokenize source = .ok ts) (he : e.Heads (some Compiler.maxDepth) ts) :
    ∃ chunk, compile source = .ok chunk ∧ ∀ m : Machine, m.execute chunk.code.toList = (.ok e.value, ⟨[]⟩) := by
  have hc := Compiler.compileWithin_of_heads he
  refine ⟨_, by rw [compile, ht]; exact hc, ?_⟩
  intro m
  rw [Compiler.code_of_compileWithin he hc, m.execute_code]

theorem exists_heads_of_compile {chunk : Chunk} (h : compile source = .ok chunk) : ∃ ts, ∃ e : Expr,
    tokenize source = .ok ts ∧ e.Heads (some Compiler.maxDepth) ts ∧ execute chunk.code.toList = .ok e.value := by
  rw [compile] at h
  split at h
  case h_1 => cases h
  case h_2 ts ht =>
    obtain ⟨e, he⟩ := Compiler.heads_of_compileWithin h
    exact ⟨ts, e, ht, he, by rw [execute, Compiler.code_of_compileWithin he h, Machine.execute_code]⟩

theorem evaluate_eq_ok_iff : evaluate source = .ok x ↔
    ∃ ts, ∃ e : Expr, tokenize source = .ok ts ∧ e.Heads (some Compiler.maxDepth) ts ∧ e.value = x := by
  constructor
  · intro h
    rw [evaluate] at h
    split at h
    case h_1 => cases h
    case h_2 chunk hchunk =>
      obtain ⟨ts, e, ht, he, hexecute⟩ := exists_heads_of_compile hchunk
      rw [hexecute] at h
      exact ⟨ts, e, ht, he, Except.ok.inj h⟩
  · rintro ⟨ts, e, ht, he, rfl⟩
    obtain ⟨chunk, hchunk, hexecute⟩ := exists_chunk_of_heads ht he
    rw [evaluate, hchunk]
    simp only [execute, hexecute]
    rfl

/-- The tree `e` is made of all the lexemes of `cs`, where that stands behind `before`. -/
structure Expr.Spans (before cs : List Char) (e : Expr) : Prop where
  derives : e.Derives .sum
  splits : ∃ found, Splits before cs found [] ∧ e.tokens = found.map (·.token lineAfter)

theorem Expr.Spans.evaluate_eq (h : e.Spans [] source.toList) (hneed : e.need ≤ Compiler.maxDepth) :
    evaluate source = .ok e.value := by
  obtain ⟨hderives, found, hs, htokens⟩ := h
  have ht := tokenize_of_splits hs
  rw [String.ofList_toList, ← htokens] at ht
  have he : e.Heads (some Compiler.maxDepth) e.tokens :=
    ⟨hderives, by simpa using hneed, [], (List.append_nil _).symm, by simp⟩
  exact evaluate_eq_ok_iff.mpr ⟨_, e, ht, he, rfl⟩

theorem exists_chunk_of_evaluate (h : evaluate source = .ok x) :
    ∃ chunk, compile source = .ok chunk ∧ ∀ m : Machine, m.execute chunk.code.toList = (.ok x, ⟨[]⟩) := by
  obtain ⟨ts, e, ht, he, rfl⟩ := evaluate_eq_ok_iff.mp h
  exact exists_chunk_of_heads ht he

theorem Chunk.report_off (c : Chunk) : c.report false false = "" := rfl

theorem Repl.evaluate_text (h : StackCalc.evaluate source = .ok x) (m : Machine) :
    ((Repl.mk m false false).evaluate source).1 = .text x.display := by
  obtain ⟨chunk, hchunk, hexecute⟩ := exists_chunk_of_evaluate h
  simp only [Repl.evaluate, hchunk, hexecute, Chunk.report_off, String.empty_append]

theorem CommandLine.run_expression (h : StackCalc.evaluate source = .ok x) (colored : Bool)
    (readFile : String → Except ReadError (List UInt8)) (stdin : List UInt8) :
    run colored readFile stdin ["-e", source] = { stdout := x.display ++ "\n" } := by
  obtain ⟨chunk, hchunk, hexecute⟩ := exists_chunk_of_evaluate h
  have hparse : parse {} ["-e", source] = .ok { input := .expression source } := rfl
  simp only [run, hparse, evaluate, hchunk, execute, hexecute, Chunk.report_off, String.empty_append]

end StackCalc
