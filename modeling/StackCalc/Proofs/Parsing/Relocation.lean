import StackCalc.Proofs.Parsing.Spelling

namespace StackCalc

section Lines

def LexError.forgetLine : LexError → LexError
  | unexpectedSymbol lexeme _ => unexpectedSymbol lexeme 0
  | ambiguousMatch _ => ambiguousMatch 0
  | noMatch offset => noMatch offset

def ParseError.forgetLine : ParseError → ParseError
  | expressionExpected found _ => expressionExpected found 0
  | unclosedGroup found _ => unclosedGroup found 0
  | operatorExpected found _ => operatorExpected found 0
  | invalidNumber lexeme _ => invalidNumber lexeme 0
  | tooDeep _ => tooDeep 0

def Failure.forgetLine : Failure → Failure
  | lex cause => lex cause.forgetLine
  | parse cause => parse cause.forgetLine
  | runtime cause => runtime cause

end Lines

open Compiler (BeginsOperand Closes Goal Stops found)

namespace SpelledAlike

variable {t : Token} {ts ts' : List Token}

theorem exists_head (h : SpelledAlike ts ts') (ht : t ∈ ts.head?) :
    ∃ t' ∈ ts'.head?, t'.kind = t.kind ∧ t'.lexeme = t.lexeme := by
  obtain ⟨ts, rfl⟩ := List.head?_eq_some_iff.mp ht
  obtain ⟨t', ts', rfl, hk, hlexeme, -⟩ := h.exists_cons
  exact ⟨t', rfl, hk, hlexeme⟩

theorem tail (h : SpelledAlike ts ts') : SpelledAlike ts.tail ts'.tail := by
  rw [SpelledAlike, List.map_tail, List.map_tail, h]

theorem found_eq (h : SpelledAlike ts ts') : found ts' = found ts := by
  cases ts with
  | nil =>
    obtain rfl : ts' = [] := List.map_eq_nil_iff.mp (Eq.symm h)
    rfl
  | cons t ts =>
    obtain ⟨t', ts', rfl, -, hlexeme, -⟩ := h.exists_cons
    exact hlexeme

theorem beginsOperand (h : SpelledAlike ts ts') (hts : BeginsOperand ts) : BeginsOperand ts' := by
  obtain ⟨t, ht, hkind⟩ := hts
  obtain ⟨t', ht', hk, -⟩ := h.exists_head ht
  exact ⟨t', ht', by rwa [hk]⟩

theorem closes (h : SpelledAlike ts ts') (hts : Closes ts) : Closes ts' := by
  obtain ⟨t, ht, hkind⟩ := hts
  obtain ⟨t', ht', hk, -⟩ := h.exists_head ht
  exact ⟨t', ht', hk.trans hkind⟩

theorem stops {least : Precedence} (h : SpelledAlike ts ts') (hts : Stops least ts) : Stops least ts' := by
  intro t' ht' op hop
  obtain ⟨t, ht, hk, -⟩ := h.symm.exists_head ht'
  exact hts t ht op (hk.trans hop)

end SpelledAlike

/-- Parsers that have the same tokens in front of them, but for their lines, and the same code behind them. -/
structure Parser.Alike (p p' : Parser) : Prop where
  rest : SpelledAlike p.rest p'.rest
  depth : p'.depth = p.depth
  code : p'.chunk.code = p.chunk.code

namespace Parser.Alike

variable {p p' : Parser}

theorem enter (h : p.Alike p') : p.enter.Alike p'.enter := ⟨h.rest, congrArg (· + 1) h.depth, h.code⟩

theorem leave (h : p.Alike p') : p.leave.Alike p'.leave := ⟨h.rest, congrArg (· - 1) h.depth, h.code⟩

theorem skip (h : p.Alike p') : p.skip.Alike p'.skip := ⟨h.rest.tail, h.depth, h.code⟩

theorem write (h : p.Alike p') (op : Opcode) (line line' : Nat) : (p.write op line).Alike (p'.write op line') :=
  ⟨h.rest, h.depth, congrArg (·.push op.cell) h.code⟩

theorem writeNumber (h : p.Alike p') (x : Cell) (line line' : Nat) :
    (p.writeNumber x line).Alike (p'.writeNumber x line') :=
  ⟨h.rest, h.depth, congrArg (fun code => (code.push Opcode.pushNumber.cell).push x) h.code⟩

end Parser.Alike

namespace Compiler

variable {limit : Option Nat} {lastLine : Nat} {g g' : Goal} {p p' q : Parser} {e : Expr} {f : Failure}
  {ts ts' : List Token}

inductive Goal.Alike : Goal → Goal → Prop where
  | expression {least} : Alike (.expression least) (.expression least)
  | operand : Alike .operand .operand
  | operators {least l l'} : Alike (.operators least l) (.operators least l')

theorem Reads.exists_alike (h : Reads limit g p e q) (hg : g.Alike g') (hp : p.Alike p') :
    ∃ e' q', Reads limit g' p' e' q' ∧ q.Alike q' := by
  induction h generalizing g' p' with
  | expression hd _ _ iho ihl =>
    cases hg
    obtain ⟨l', q, ho, hq⟩ := iho .operand hp.enter
    obtain ⟨e', q', hl, hq'⟩ := ihl .operators hq
    rw [← hp.depth] at hd
    exact ⟨e', _, .expression hd ho hl, hq'.leave⟩
  | number ht hk hx =>
    cases hg
    obtain ⟨t', ht', hk', hlexeme⟩ := hp.rest.exists_head ht
    rw [← hlexeme] at hx
    exact ⟨_, _, .number ht' (hk'.trans hk) hx, hp.skip.writeNumber ..⟩
  | group ht hk _ hc hck ih =>
    cases hg
    obtain ⟨t', ht', hk', -⟩ := hp.rest.exists_head ht
    obtain ⟨e', q, he, hq⟩ := ih .expression hp.skip
    obtain ⟨c', hc', hck', -⟩ := hq.rest.exists_head hc
    exact ⟨_, _, .group ht' (hk'.trans hk) he hc' (hck'.trans hck), hq.skip⟩
  | negation ht hk _ ih =>
    cases hg
    obtain ⟨t', ht', hk', -⟩ := hp.rest.exists_head ht
    obtain ⟨e', q, he, hq⟩ := ih .expression hp.skip
    exact ⟨_, _, .negation ht' (hk'.trans hk) he, hq.write ..⟩
  | stop hs =>
    cases hg
    exact ⟨_, _, .stop (hp.rest.stops hs), hp⟩
  | operator ht hk hl _ _ ihr ihe =>
    cases hg
    obtain ⟨t', ht', hk', -⟩ := hp.rest.exists_head ht
    obtain ⟨r', q, hr, hq⟩ := ihr .expression hp.skip
    obtain ⟨e', q', he, hq'⟩ := ihe .operators (hq.write ..)
    exact ⟨e', q', .operator ht' (hk'.trans hk) hl hr he, hq'⟩

theorem Fails.exists_alike (h : Fails limit lastLine g p f q) (hg : g.Alike g') (hp : p.Alike p') (lastLine' : Nat) :
    ∃ f' q', Fails limit lastLine' g' p' f' q' ∧ f'.forgetLine = f.forgetLine := by
  induction h generalizing g' p' with
  | tooDeep hd =>
    cases hg
    rw [← hp.depth] at hd
    exact ⟨_, _, .tooDeep hd, rfl⟩
  | operand hd _ ih =>
    cases hg
    obtain ⟨f', q', hf, hline⟩ := ih .operand hp.enter
    rw [← hp.depth] at hd
    exact ⟨f', _, .operand hd hf, hline⟩
  | operators hd ho _ ih =>
    cases hg
    obtain ⟨l', q, ho', hq⟩ := ho.exists_alike .operand hp.enter
    obtain ⟨f', q', hf, hline⟩ := ih .operators hq
    rw [← hp.depth] at hd
    exact ⟨f', _, .operators hd ho' hf, hline⟩
  | @noOperand p h =>
    cases hg
    refine ⟨_, _, .noOperand (fun h' => h (hp.rest.symm.beginsOperand h')), ?_⟩
    simp only [expressionExpected, Failure.forgetLine, ParseError.forgetLine, hp.rest.found_eq]
  | invalidNumber ht hk hx =>
    cases hg
    obtain ⟨t', ht', hk', hlexeme⟩ := hp.rest.exists_head ht
    rw [← hlexeme] at hx
    refine ⟨_, _, .invalidNumber ht' (hk'.trans hk) hx, ?_⟩
    simp only [Failure.forgetLine, ParseError.forgetLine, hlexeme]
  | inner ht hk _ ih =>
    cases hg
    obtain ⟨t', ht', hk', -⟩ := hp.rest.exists_head ht
    obtain ⟨f', q', hf, hline⟩ := ih .expression hp.skip
    exact ⟨f', q', .inner ht' (hk'.trans hk) hf, hline⟩
  | unclosed ht hk he hc =>
    cases hg
    obtain ⟨t', ht', hk', -⟩ := hp.rest.exists_head ht
    obtain ⟨e', q, he', hq⟩ := he.exists_alike .expression hp.skip
    refine ⟨_, _, .unclosed ht' (hk'.trans hk) he' (fun hc' => hc (hq.rest.symm.closes hc')), ?_⟩
    simp only [unclosedGroup, Failure.forgetLine, ParseError.forgetLine, hq.rest.found_eq]
  | negated ht hk _ ih =>
    cases hg
    obtain ⟨t', ht', hk', -⟩ := hp.rest.exists_head ht
    obtain ⟨f', q', hf, hline⟩ := ih .expression hp.skip
    exact ⟨f', q', .negated ht' (hk'.trans hk) hf, hline⟩
  | right ht hk hl _ ih =>
    cases hg
    obtain ⟨t', ht', hk', -⟩ := hp.rest.exists_head ht
    obtain ⟨f', q', hf, hline⟩ := ih .expression hp.skip
    exact ⟨f', q', .right ht' (hk'.trans hk) hl hf, hline⟩
  | later ht hk hl hr _ ih =>
    cases hg
    obtain ⟨t', ht', hk', -⟩ := hp.rest.exists_head ht
    obtain ⟨r', q, hr', hq⟩ := hr.exists_alike .expression hp.skip
    obtain ⟨f', q', hf, hline⟩ := ih .operators (hq.write ..)
    exact ⟨f', q', .later ht' (hk'.trans hk) hl hr' hf, hline⟩

theorem compileWithin_alike (limit : Option Nat) (h : SpelledAlike ts ts') :
    ((compileWithin limit ts').map Chunk.code).mapError Failure.forgetLine =
      ((compileWithin limit ts).map Chunk.code).mapError Failure.forgetLine := by
  have hp : Parser.Alike { rest := ts } { rest := ts' } := ⟨h, rfl, rfl⟩
  rcases compileWithin_runs limit ts with ⟨e, q, hreads, hc⟩ | ⟨f, q, hfails, hc⟩
  · obtain ⟨e', q', hreads', hq⟩ := hreads.exists_alike .expression hp
    rw [hc, compileWithin_of_reads hreads']
    exact congrArg Except.ok (hq.write .halt (lastLineOf ts) (lastLineOf ts')).code
  · obtain ⟨f', q', hfails', hline⟩ := hfails.exists_alike .expression hp (lastLineOf ts')
    rw [hc, compileWithin_of_fails hfails']
    exact congrArg Except.error hline

end Compiler

end StackCalc
