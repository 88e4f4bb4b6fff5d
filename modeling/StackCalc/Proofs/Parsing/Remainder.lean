import Mathlib.Control.Monad.Basic
import StackCalc.Proofs.Parsing.Language

/-!
# What follows an expression

The tokens after an expression stay unread, whatever they are, and leave no trace in the code. The line of the
final halt is taken from the last of them all the same.
-/

namespace StackCalc

variable {limit : Option Nat} {w rest : List Token} {e : Expr} {chunk : Chunk}

theorem Chunk.push_inj {c : Chunk} {op : Opcode} {line line' : Nat} :
    c.push op line = c.push op line' ↔ line = line' := by
  constructor
  · intro h
    have hlines : c.lines.push line = c.lines.push line' := congrArg Chunk.lines h
    exact (Array.push_eq_push.mp hlines).1
  · rintro rfl
    rfl

theorem Expr.Heads.append (h : e.Heads limit e.tokens)
    (hrest : ∀ t ∈ rest.head?, ∀ op : Operator, t.kind ≠ op.kind) : e.Heads limit (e.tokens ++ rest) :=
  ⟨h.derives, h.need_le, rest, rfl, hrest⟩

namespace Compiler

def unread (ts : List Token) : List Token :=
  (expression (some maxDepth) (lastLineOf ts) .unit { rest := ts }).parser.rest

theorem tokens_append_unread {ts : List Token} (he : e.Heads (some maxDepth) ts) : ts = e.tokens ++ unread ts := by
  obtain ⟨q, hq, -⟩ := reads_of_heads he
  rcases expression_runs .unit { rest := ts } with ⟨e', hreads, -⟩ | ⟨f, hfails, -⟩
  · obtain ⟨rfl, -⟩ := hq.unique hreads
    exact hreads.tokens_eq
  · exact absurd hq hfails.not_reads

theorem compile_append (hw : compile w = .ok chunk) (hall : unread w = [])
    (hrest : ∀ t ∈ rest.head?, ∀ op : Operator, t.kind ≠ op.kind) :
    unread (w ++ rest) = rest ∧ ∃ chunk', compile (w ++ rest) = .ok chunk' ∧ chunk'.code = chunk.code ∧
      chunk'.lines = chunk.lines.pop.push (lastLineOf (w ++ rest)) ∧
      (chunk' = chunk ↔ lastLineOf (w ++ rest) = lastLineOf w) := by
  obtain ⟨e, he⟩ := heads_of_compileWithin hw
  have htokens : w = e.tokens := by
    have hunread := tokens_append_unread he
    rwa [hall, List.append_nil] at hunread
  subst htokens
  have happend := he.append hrest
  have hunread := tokens_append_unread happend
  cases hw.symm.trans (compileWithin_of_heads he)
  refine ⟨(List.append_cancel_left hunread).symm, _, compileWithin_of_heads happend, rfl, ?_, Chunk.push_inj⟩
  simp [Chunk.push, Chunk.append]

theorem compile_append_number : let w : List Token := [⟨.minus, "-", 1⟩, ⟨.number, "2", 1⟩]
    let rest : List Token := [⟨.number, "3", 1⟩]
    let chunk : Chunk := ⟨#[Cell.zero, Cell.ofNat 2, Opcode.negate.cell, Opcode.halt.cell], #[1, 1, 1, 1]⟩
    compile w = .ok chunk ∧ unread w = [] ∧ (∀ t ∈ rest.head?, ∀ op : Operator, t.kind ≠ op.kind) ∧
      unread (w ++ rest) = rest ∧ compile (w ++ rest) = .ok chunk := by
  intro w rest chunk
  have hw : compile w = .ok chunk := by decide +kernel
  have hall : unread w = [] := by decide +kernel
  have hrest : ∀ t ∈ rest.head?, ∀ op : Operator, t.kind ≠ op.kind := by
    intro t ht op
    cases ht
    cases op <;> decide
  obtain ⟨hunread, chunk', hc, -, -, hsame⟩ := compile_append hw hall hrest
  obtain rfl : chunk' = chunk := hsame.mpr rfl
  exact ⟨hw, hall, hrest, hunread, hc⟩

theorem compile_append_ne : let w : List Token := [⟨.number, "2", 1⟩]
    let rest : List Token := [⟨.rightParen, ")", 2⟩]
    (compile w).map Chunk.lines = .ok #[1, 1, 1] ∧ unread w = [] ∧
      (∀ t ∈ rest.head?, ∀ op : Operator, t.kind ≠ op.kind) ∧
      (compile (w ++ rest)).map Chunk.lines = .ok #[1, 1, 2] ∧ compile (w ++ rest) ≠ compile w := by
  intro w rest
  have hrest : ∀ t ∈ rest.head?, ∀ op : Operator, t.kind ≠ op.kind := by
    intro t ht op
    cases ht
    cases op <;> decide
  exact ⟨by decide +kernel, by decide +kernel, hrest, by decide +kernel, by decide +kernel⟩

end Compiler

end StackCalc
