import StackCalc.Proofs.Machine.Space
import StackCalc.Proofs.Parsing.Grammar

/-!
# What a call leaves behind

A parser goes forward in its tokens and adds to its code, also when it fails, and in the end it is as deep as it
was. What a call for an expression has added is one operand when it is executed, wherever it stands.
-/

namespace StackCalc

/-- `q` is `p` after some tokens have been read and some cells been written, each with its line. -/
structure Parser.Extends (p q : Parser) : Prop where
  rest : q.rest <:+ p.rest
  depth : q.depth = p.depth
  chunk : ∃ cells, q.chunk = p.chunk.extend cells

namespace Parser.Extends

variable {p q r : Parser}

theorem refl (p : Parser) : Extends p p :=
  ⟨List.suffix_refl p.rest, rfl, [], p.chunk.extend_nil.symm⟩

theorem trans (h : Extends p q) (h' : Extends q r) : Extends p r := by
  obtain ⟨xs, hq⟩ := h.chunk
  obtain ⟨ys, hr⟩ := h'.chunk
  refine ⟨h'.rest.trans h.rest, h'.depth.trans h.depth, xs ++ ys, ?_⟩
  rw [hr, hq, Chunk.extend_append]

theorem skip (p : Parser) : Extends p p.skip :=
  ⟨List.tail_suffix p.rest, rfl, [], p.chunk.extend_nil.symm⟩

theorem write (p : Parser) (op : Opcode) (line : Nat) : Extends p (p.write op line) :=
  ⟨List.suffix_refl p.rest, rfl, _, (p.chunk.extend_singleton op line).symm⟩

theorem leave (h : Extends p.enter q) : Extends p q.leave where
  rest := h.rest
  depth := by rw [depth_leave, h.depth, depth_enter, Nat.add_sub_cancel]
  chunk := h.chunk

end Parser.Extends

theorem Expr.tokens_ne_nil (e : Expr) : e.tokens ≠ [] := by
  cases e <;> simp [tokens]

namespace Compiler

open StackCalc.Parser (Extends)
open StackCalc.Frame (StepsAbove)

variable {limit : Option Nat} {lastLine : Nat} {g : Goal} {p q : Parser} {e : Expr} {f : Failure}
  {least : Precedence}

theorem Reads.extends (h : Reads limit g p e q) : Extends p q := by
  obtain ⟨cells, -, hchunk⟩ := h.chunk_eq
  exact ⟨h.rest_suffix, h.depth_eq, cells, hchunk⟩

theorem Fails.extends (h : Fails limit lastLine g p f q) : Extends p q := by
  induction h with
  | tooDeep => exact .refl _
  | operand _ _ ih => exact ih.leave
  | operators _ ho _ ih => exact (ho.extends.trans ih).leave
  | noOperand => exact .skip _
  | invalidNumber => exact .skip _
  | inner _ _ _ ih => exact (Extends.skip _).trans ih
  | unclosed _ _ he _ => exact ((Extends.skip _).trans he.extends).trans (.skip _)
  | negated _ _ _ ih => exact (Extends.skip _).trans ih
  | right _ _ _ _ ih => exact (Extends.skip _).trans ih
  | later _ _ _ hr _ ih => exact ((Extends.skip _).trans hr.extends).trans ((Extends.write ..).trans ih)

theorem Reads.chunk_expression (h : Reads limit (.expression least) p e q) : q.chunk = p.chunk.extend e.cells := by
  obtain ⟨cells, hcells, hchunk⟩ := h.chunk_eq
  rw [hchunk, ← hcells]
  rfl

theorem expression_ends (lastLine : Nat) (least : Precedence) (p : Parser) :
    let call := expression (some maxDepth) lastLine least p
    let q := call.parser
    Describes (some maxDepth) lastLine (.expression least) call ∧ q.depth = p.depth ∧
      ∃ cells, q.chunk = p.chunk.extend cells ∧
        ((∃ f, call.result = .error f) ∨
          call.result = .ok () ∧ (∃ read, read ≠ [] ∧ p.rest = read ++ q.rest) ∧ Stops least q.rest ∧
            ∃ x room, p.depth + room ≤ maxDepth ∧ ∀ offset after stack,
              StepsAbove stack room ⟨offset, cells.map Prod.fst ++ after, stack⟩
                ⟨offset + cells.length, after, x :: stack⟩) := by
  intro call q
  have hruns : Describes (some maxDepth) lastLine (.expression least) call := expression_runs least p
  rcases hruns with ⟨e, hreads, hok⟩ | ⟨f, hfails, herror⟩
  · refine ⟨.inl ⟨e, hreads, hok⟩, hreads.depth_eq, e.cells, hreads.chunk_expression, .inr ⟨hok, ?_, ?_, ?_⟩⟩
    · exact ⟨e.tokens, e.tokens_ne_nil, hreads.tokens_eq⟩
    · exact hreads.derived.2
    · refine ⟨e.value, e.need, hreads.fits rfl, ?_⟩
      intro offset after stack
      have hlength : e.cells.length = e.code.length := (List.length_map Prod.fst).symm
      rw [hlength]
      exact e.stepsAbove_code offset after stack
  · obtain ⟨cells, hchunk⟩ := hfails.extends.chunk
    exact ⟨.inr ⟨f, hfails, herror⟩, hfails.extends.depth, cells, hchunk, .inl ⟨f, herror⟩⟩

end Compiler

end StackCalc
