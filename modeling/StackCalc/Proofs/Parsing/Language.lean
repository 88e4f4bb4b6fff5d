import StackCalc.Proofs.Parsing.Grammar

/-!
# The language of the compiler

A token list compiles if and only if a tree of the grammar heads it: the tree's tokens stand at the
front, it nests no deeper than allowed, and no operator follows. There is one such tree, and the code
is its postfix form.
-/

namespace StackCalc

/-- A tree of the grammar whose tokens stand at the front of `ts`, with no operator after them. -/
structure Expr.Heads (limit : Option Nat) (e : Expr) (ts : List Token) : Prop where
  derives : e.Derives .sum
  need_le : ∀ n ∈ limit, e.need ≤ n
  tokens_append : ∃ rest, ts = e.tokens ++ rest ∧ ∀ t ∈ rest.head?, ∀ op : Operator, t.kind ≠ op.kind

namespace Compiler

variable {limit : Option Nat} {ts : List Token} {e : Expr}

theorem stops_unit_iff : Stops .unit ts ↔ ∀ t ∈ ts.head?, ∀ op : Operator, t.kind ≠ op.kind := by
  have hle (op : Operator) : Precedence.unit ≤ op.precedence := by cases op <;> decide
  constructor
  · exact fun h t ht op hop => h t ht op hop (hle op)
  · exact fun h t ht op hop => absurd hop (h t ht op)

theorem reads_of_heads (h : e.Heads limit ts) :
    ∃ q, Reads limit (.expression .unit) { rest := ts } e q ∧ q.chunk = Chunk.extend {} e.cells := by
  obtain ⟨hderives, hneed, rest, rfl, hrest⟩ := h
  have hreadable : Readable limit .sum e := readable_of_derives hderives
  have hreads := hreadable.expression (d := 0) (c := {}) (by decide) (stops_unit_iff.mpr hrest)
    (by simpa using hneed)
  exact ⟨_, hreads, rfl⟩

theorem heads_of_reads {q : Parser} (h : Reads limit (.expression .unit) { rest := ts } e q) :
    e.Heads limit ts := by
  refine ⟨h.derived.1, ?_, q.rest, h.tokens_eq, stops_unit_iff.mp h.derived.2⟩
  intro n hn
  have := h.fits hn
  simpa only [Goal.Fits, Nat.zero_add] using this

theorem heads_unique {e' : Expr} (h : e.Heads limit ts) (h' : e'.Heads limit ts) : e' = e := by
  obtain ⟨q, hq, -⟩ := reads_of_heads h
  obtain ⟨q', hq', -⟩ := reads_of_heads h'
  exact (hq'.unique hq).1

theorem compileWithin_of_heads (h : e.Heads limit ts) :
    compileWithin limit ts = .ok ((Chunk.extend {} e.cells).push .halt (lastLineOf ts)) := by
  obtain ⟨q, hq, hchunk⟩ := reads_of_heads h
  rw [compileWithin_of_reads hq, hchunk]

theorem heads_of_compileWithin {chunk : Chunk} (h : compileWithin limit ts = .ok chunk) :
    ∃ e : Expr, e.Heads limit ts := by
  rcases compileWithin_runs limit ts with ⟨e, q, hreads, -⟩ | ⟨f, q, -, hfail⟩
  · exact ⟨e, heads_of_reads hreads⟩
  · rw [hfail] at h
    cases h

theorem code_of_compileWithin {chunk : Chunk} (h : e.Heads limit ts)
    (hc : compileWithin limit ts = .ok chunk) : chunk.code.toList = e.code ++ [Opcode.halt.cell] := by
  rw [compileWithin_of_heads h] at hc
  cases hc
  simp [Chunk.push, Chunk.extend, Expr.code]

theorem compile_eq_ok_iff (ts : List Token) :
    ((∃ chunk, compile ts = .ok chunk) ↔ ∃ e : Expr, e.Heads (some maxDepth) ts) ∧
      ∀ e : Expr, e.Heads (some maxDepth) ts → (∀ e' : Expr, e'.Heads (some maxDepth) ts → e' = e) ∧
        ∃ chunk, compile ts = .ok chunk ∧ chunk.code.toList = e.code ++ [Opcode.halt.cell] := by
  refine ⟨⟨?_, ?_⟩, ?_⟩
  · rintro ⟨chunk, hc⟩
    exact heads_of_compileWithin hc
  · rintro ⟨e, he⟩
    exact ⟨_, compileWithin_of_heads he⟩
  · intro e he
    have hc := compileWithin_of_heads he
    exact ⟨fun e' he' => heads_unique he he', _, hc, code_of_compileWithin he hc⟩

end Compiler

end StackCalc
