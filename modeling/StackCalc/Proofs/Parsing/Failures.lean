import StackCalc.Proofs.Parsing.Readings

namespace StackCalc

inductive Failure.OfSource : Failure → Prop where
  | unexpectedSymbol {lexeme line} : OfSource (.lex (.unexpectedSymbol lexeme line))
  | expressionExpected {found line} : OfSource (.parse (.expressionExpected found line))
  | unclosedGroup {found line} : OfSource (.parse (.unclosedGroup found line))
  | tooDeep {line} : OfSource (.parse (.tooDeep line))

def Failure.OfNumber (ts : List Token) (f : Failure) : Prop :=
  ∃ t ∈ ts, t.kind = .number ∧ Numeral.read? t.lexeme = none ∧ f = .parse (.invalidNumber t.lexeme t.line)

theorem Failure.OfNumber.mono {ts ts' : List Token} {f : Failure} (h : OfNumber ts f) (hts : ts ⊆ ts') :
    OfNumber ts' f := by
  obtain ⟨t, ht, hf⟩ := h
  exact ⟨t, hts ht, hf⟩

namespace Compiler

variable {limit : Option Nat} {lastLine : Nat} {g : Goal} {p q : Parser} {f : Failure} {ts : List Token}

theorem skip_subset (p : Parser) : p.skip.rest ⊆ p.rest := (List.tail_sublist p.rest).subset

theorem Reads.rest_subset {e : Expr} (h : Reads limit g p e q) : q.rest ⊆ p.rest := by
  induction h with
  | expression _ _ _ iho ihl => exact List.Subset.trans ihl iho
  | number => exact skip_subset _
  | group _ _ _ _ _ ih => exact List.Subset.trans (skip_subset _) (List.Subset.trans ih (skip_subset _))
  | negation _ _ _ ih => exact List.Subset.trans ih (skip_subset _)
  | stop => exact List.Subset.refl _
  | operator _ _ _ _ _ ihr ih => exact List.Subset.trans ih (List.Subset.trans ihr (skip_subset _))

theorem Fails.cause (h : Fails limit lastLine g p f q) : f.OfSource ∨ f.OfNumber p.rest := by
  induction h with
  | tooDeep => exact .inl .tooDeep
  | operand _ _ ih => exact ih
  | operators _ ho _ ih => exact ih.imp_right (·.mono ho.rest_subset)
  | noOperand => exact .inl .expressionExpected
  | invalidNumber hp ht hx => exact .inr ⟨_, List.mem_of_mem_head? hp, ht, hx, rfl⟩
  | inner _ _ _ ih => exact ih.imp_right (·.mono (skip_subset _))
  | unclosed => exact .inl .unclosedGroup
  | negated _ _ _ ih => exact ih.imp_right (·.mono (skip_subset _))
  | right _ _ _ _ ih => exact ih.imp_right (·.mono (skip_subset _))
  | later _ _ _ hr _ ih => exact ih.imp_right (·.mono (List.Subset.trans hr.rest_subset (skip_subset _)))

theorem cause_of_compileWithin (h : compileWithin limit ts = .error f) : f.OfSource ∨ f.OfNumber ts := by
  rcases compileWithin_runs limit ts with ⟨e, q, -, hc⟩ | ⟨f', q, hfails, hc⟩
  · cases hc.symm.trans h
  · cases hc.symm.trans h
    exact hfails.cause

end Compiler

end StackCalc
