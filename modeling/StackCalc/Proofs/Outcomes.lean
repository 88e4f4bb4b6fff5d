import StackCalc.Proofs.Decimal.Reading
import StackCalc.Proofs.Parsing.Failures
import StackCalc.Proofs.Values

/-!
# Outcomes of a source text

A source text has a value, or it has one of four errors. The other errors answer to token lists and
to code that no source text leads to, or to nothing at all.
-/

namespace StackCalc

variable {source : String} {tokens : List Token} {chunk : Chunk} {f : Failure}

theorem matches_of_tokenize (h : tokenize source = .ok tokens) {t : Token} (ht : t ∈ tokens) :
    ∃ cs, t.lexeme = .ofList cs ∧ t.kind.Matches cs := by
  obtain ⟨found, hs, rfl⟩ := exists_splits_of_tokenize h
  obtain ⟨l, hl, rfl⟩ := List.mem_map.mp ht
  exact ⟨l.text, rfl, (hs.kind_of_mem hl).2.2⟩

theorem numeral_of_tokenize (h : tokenize source = .ok tokens) {t : Token} (ht : t ∈ tokens)
    (hk : t.kind = .number) : ∃ x, Numeral.read? t.lexeme = some x := by
  obtain ⟨cs, hlexeme, hm⟩ := matches_of_tokenize h ht
  rw [hk] at hm
  rw [hlexeme]
  exact Numeral.read?_isSome hm

theorem ofSource_of_compile (h : compile source = .error f) : f.OfSource := by
  rw [compile] at h
  split at h
  · rename_i e he
    cases h
    rcases tokenize_cases source with ⟨_, _, hok⟩ | ⟨_, _, _, _, _, _, _, herror⟩
    · cases he.symm.trans hok
    · cases he.symm.trans herror
      exact .unexpectedSymbol
  · rename_i tokens htokens
    rcases Compiler.cause_of_compileWithin h with hf | ⟨t, ht, hk, hx, -⟩
    · exact hf
    · obtain ⟨x, hsome⟩ := numeral_of_tokenize htokens ht hk
      cases hx.symm.trans hsome

theorem execute_of_compile (h : compile source = .ok chunk) : ∃ x, execute chunk.code.toList = .ok x := by
  obtain ⟨_, e, -, -, hexecute⟩ := exists_heads_of_compile h
  exact ⟨e.value, hexecute⟩

theorem evaluate_outcome :
    (∀ source, (∃ x, evaluate source = .ok x) ∨ ∃ f, evaluate source = .error f ∧ f.OfSource) ∧
      ∀ ts f, Compiler.compile ts = .error f →
        (∀ found line, f ≠ .parse (.operatorExpected found line)) ∧
          ∀ k, f ≠ .runtime (.unmappedOperator k) := by
  constructor
  · intro source
    rw [evaluate]
    split
    · rename_i f hf
      exact .inr ⟨f, rfl, ofSource_of_compile hf⟩
    · rename_i chunk hchunk
      obtain ⟨x, hx⟩ := execute_of_compile hchunk
      rw [hx]
      exact .inl ⟨x, rfl⟩
  · intro ts f hf
    rcases Compiler.cause_of_compileWithin hf with hf | ⟨t, -, -, -, rfl⟩
    · cases hf <;> simp
    · simp

end StackCalc
