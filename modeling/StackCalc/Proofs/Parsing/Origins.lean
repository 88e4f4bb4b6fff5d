import StackCalc.Proofs.Parsing.Contexts
import StackCalc.Proofs.Parsing.Emission
import StackCalc.Proofs.Parsing.Remainder

/-!
# Where instructions come from

Each token of an expression is written as one instruction, unless it is a parenthesis, and nothing else is written
but the final halt. The instructions stand in another order than the tokens: the one of an operator comes after
those of its operands.
-/

namespace StackCalc

def Token.isParenthesis (t : Token) : Bool := t.kind = .leftParen || t.kind = .rightParen

def OperandDue (before : List Token) : Prop :=
  ∀ t ∈ before.getLast?, t.kind = .leftParen ∨ ∃ op : Operator, t.kind = op.kind

/-- The instruction for the token `t` behind the tokens `before`. A minus sign stands for a negation where an
operand is due and for a subtraction elsewhere. -/
def Token.WrittenAs (t : Token) (before : List Token) : Instruction → Prop
  | .push x => t.kind = .number ∧ Numeral.read? t.lexeme = some x
  | .negate => t.kind = .minus ∧ OperandDue before
  | .operate op => t.kind = op.kind ∧ ¬OperandDue before
  | .truncated | .halt | .unknown _ => False

/-- An instruction and the token that it has been written for, with its place among all tokens. -/
structure Origin where
  token : Token
  place : Nat
  instruction : Instruction

def sites (ts : List Token) (start : Nat) : List (Token × Nat) := (ts.zipIdx start).filter fun o => !o.1.isParenthesis

section Sites

variable {t : Token} {ts ts' : List Token} {start : Nat}

theorem sites_append : sites (ts ++ ts') start = sites ts start ++ sites ts' (start + ts.length) := by
  rw [sites, List.zipIdx_append, List.filter_append]
  rfl

theorem sites_cons (h : t.isParenthesis = false) : sites (t :: ts) start = (t, start) :: sites ts (start + 1) :=
  List.filter_cons_of_pos (by simp [h])

theorem sites_cons_parenthesis (h : t.isParenthesis = true) : sites (t :: ts) start = sites ts (start + 1) :=
  List.filter_cons_of_neg (by simp [h])

end Sites

namespace Expr

def origins : Expr → Nat → List Origin
  | number m x, start => [⟨m.token .number, start, .push x⟩]
  | group _ e _, start => e.origins (start + 1)
  | negation m e, start => e.origins (start + 1) ++ [⟨m.token .minus, start, .negate⟩]
  | binary op m l r, start => l.origins start ++ r.origins (start + l.tokens.length + 1) ++
      [⟨m.token op.kind, start + l.tokens.length, .operate op⟩]

variable {e : Expr} {s : Phrase} {start : Nat} {o : Origin} {before all : List Token}

theorem instructions_eq (e : Expr) (start : Nat) :
    e.instructions = (e.origins start).map fun o => (o.instruction, o.token.line) := by
  induction e generalizing start with
  | number => rfl
  | group _ e _ ih => exact ih (start + 1)
  | negation m e ih =>
    rw [instructions, origins, List.map_append, ← ih]
    rfl
  | binary op m l r ihl ihr =>
    rw [instructions, origins, List.map_append, List.map_append, ← ihl, ← ihr]
    rfl

theorem origins_perm (e : Expr) (start : Nat) :
    ((e.origins start).map fun o => (o.token, o.place)).Perm (sites e.tokens start) := by
  induction e generalizing start with
  | number => exact .refl _
  | group opening e closing ih =>
    have hclosing : sites [closing.token .rightParen] (start + 1 + e.tokens.length) = [] := rfl
    rw [tokens, sites_cons_parenthesis rfl, sites_append, hclosing, List.append_nil]
    exact ih (start + 1)
  | negation m e ih =>
    rw [tokens, sites_cons rfl, origins, List.map_append]
    exact (List.perm_append_singleton _ _).trans ((ih (start + 1)).cons _)
  | binary op m l r ihl ihr =>
    have hop : (m.token op.kind).isParenthesis = false := by cases op <;> rfl
    rw [tokens, sites_append, sites_cons hop, origins, List.append_assoc, List.map_append, List.map_append]
    exact (ihl start).append ((List.perm_append_singleton _ _).trans ((ihr _).cons _))

theorem place_bounds (h : o ∈ e.origins start) : start ≤ o.place ∧ o.place < start + e.tokens.length := by
  have hsite : (o.token, o.place) ∈ sites e.tokens start :=
    (e.origins_perm start).mem_iff.mp (List.mem_map_of_mem (f := fun o => (o.token, o.place)) h)
  have hplace := List.mem_zipIdx (List.mem_filter.mp hsite).1
  exact ⟨hplace.1, hplace.2.1⟩

theorem origins_numbers (e : Expr) (start : Nat) : (e.origins start).Pairwise fun o o' =>
    o.token.kind = .number → o'.token.kind = .number → o.place < o'.place := by
  induction e generalizing start with
  | number => exact List.pairwise_singleton _ _
  | group _ e _ ih => exact ih (start + 1)
  | negation m e ih =>
    refine List.pairwise_append.mpr ⟨ih _, List.pairwise_singleton _ _, ?_⟩
    intro o _ o' ho' _ hnumber
    cases List.mem_singleton.mp ho'
    cases hnumber
  | binary op m l r ihl ihr =>
    refine List.pairwise_append.mpr ⟨List.pairwise_append.mpr ⟨ihl _, ihr _, ?_⟩, List.pairwise_singleton _ _, ?_⟩
    · intro o ho o' ho' _ _
      have := (place_bounds ho).2
      have := (place_bounds ho').1
      omega
    · intro o _ o' ho' _ hnumber
      cases List.mem_singleton.mp ho'
      cases op <;> cases hnumber

theorem exists_last (e : Expr) : ∃ ts t, e.tokens = ts ++ [t] ∧ (t.kind = .number ∨ t.kind = .rightParen) := by
  induction e with
  | number m x => exact ⟨[], _, rfl, .inl rfl⟩
  | group opening e closing _ => exact ⟨opening.token .leftParen :: e.tokens, _, rfl, .inr rfl⟩
  | negation m e ih =>
    obtain ⟨ts, t, htokens, ht⟩ := ih
    exact ⟨m.token .minus :: ts, t, by rw [tokens, htokens, List.cons_append], ht⟩
  | binary op m l r _ ih =>
    obtain ⟨ts, t, htokens, ht⟩ := ih
    exact ⟨l.tokens ++ m.token op.kind :: ts, t, by rw [tokens, htokens, List.append_assoc, List.cons_append], ht⟩

theorem not_operandDue (e : Expr) (before : List Token) : ¬OperandDue (before ++ e.tokens) := by
  obtain ⟨ts, t, htokens, ht⟩ := e.exists_last
  rw [htokens, ← List.append_assoc]
  intro h
  rcases h t List.getLast?_concat with hopening | ⟨op, hop⟩
  · rcases ht with ht | ht <;> cases ht.symm.trans hopening
  · rcases ht with ht | ht <;> cases op <;> cases ht.symm.trans hop

theorem operandDue_concat {t : Token} (h : t.kind = .leftParen ∨ ∃ op : Operator, t.kind = op.kind) :
    OperandDue (before ++ [t]) := by
  intro t' ht'
  rw [List.getLast?_concat] at ht'
  cases ht'
  exact h

theorem Derives.written (h : e.Derives s) (hdue : OperandDue before) (hall : before ++ e.tokens <+: all) :
    ∀ o ∈ e.origins before.length, o.token.WrittenAs (all.take o.place) o.instruction := by
  -- What stands in front grows by an opening parenthesis or by an operator, and an operand is due behind both.
  induction e generalizing s before with
  | number m x =>
    rw [origins, List.forall_mem_singleton]
    exact ⟨rfl, derives_number_iff.mp h⟩
  | group opening e closing ih =>
    have hinner : before ++ [opening.token .leftParen] ++ e.tokens <+: all :=
      List.IsPrefix.trans ⟨[closing.token .rightParen], by simp [tokens]⟩ hall
    have hwritten := ih (derives_group_iff.mp h) (operandDue_concat (.inl rfl)) hinner
    rwa [List.length_append] at hwritten
  | negation m e ih =>
    have hinner : before ++ [m.token .minus] ++ e.tokens <+: all :=
      List.IsPrefix.trans ⟨[], by simp [tokens]⟩ hall
    have hwritten := ih (derives_negation_iff.mp h) (operandDue_concat (.inr ⟨.subtract, rfl⟩)) hinner
    rw [List.length_append] at hwritten
    have hbefore : before = all.take before.length :=
      List.prefix_iff_eq_take.mp ((List.prefix_append before _).trans hall)
    rw [origins, List.forall_mem_append, List.forall_mem_singleton]
    refine ⟨hwritten, rfl, ?_⟩
    rwa [← hbefore]
  | binary op m l r ihl ihr =>
    obtain ⟨-, hl, hr⟩ := derives_binary_iff.mp h
    have hleft : before ++ l.tokens <+: all :=
      List.IsPrefix.trans ⟨m.token op.kind :: r.tokens, by simp [tokens]⟩ hall
    have hright : before ++ l.tokens ++ [m.token op.kind] ++ r.tokens <+: all :=
      List.IsPrefix.trans ⟨[], by simp [tokens]⟩ hall
    have hwritten := ihr hr (operandDue_concat (.inr ⟨op, rfl⟩)) hright
    rw [List.length_append, List.length_append] at hwritten
    have hoperator := l.not_operandDue before
    rw [List.prefix_iff_eq_take.mp hleft, List.length_append] at hoperator
    rw [origins, List.forall_mem_append, List.forall_mem_append, List.forall_mem_singleton]
    exact ⟨⟨ihl hl hdue hleft, hwritten⟩, rfl, hoperator⟩

def operatorPlace? : Expr → Option Nat
  | negation _ _ => some 0
  | binary _ _ l _ => some l.tokens.length
  | number _ _ | group _ _ _ => none

theorem origins_of_operator {n : Nat} (h : e.operatorPlace? = some n) (start : Nat) :
    ∃ operands own, e.origins start = operands ++ [own] ∧ own.place = start + n := by
  cases e with
  | number => cases h
  | group => cases h
  | negation m e =>
    cases h
    exact ⟨_, _, rfl, rfl⟩
  | binary op m l r =>
    cases h
    exact ⟨_, _, rfl, rfl⟩

end Expr

theorem Context.length_plug (k : Context) (e : Expr) :
    (k.plug e).tokens.length = k.before.length + (e.tokens.length + k.after.length) := by
  rw [tokens_plug, List.length_append, List.length_append]

theorem Context.origins_plug (k : Context) (e : Expr) (start : Nat) : ∃ earlier later,
    (k.plug e).origins start = earlier ++ e.origins (start + k.before.length) ++ later ∧
      ∀ o ∈ later, o.place < start + k.before.length ∨ start + k.before.length + e.tokens.length ≤ o.place := by
  -- `later` grows by the operator of each level, whose token is on either side of `e`.
  induction k generalizing start with
  | hole => exact ⟨[], [], by simp [plug, before], by simp⟩
  | group opening k closing ih =>
    have hplace : start + (group opening k closing).before.length = start + 1 + k.before.length := by
      rw [before, List.length_cons, Nat.add_assoc, Nat.add_comm 1]
    rw [hplace]
    exact ih (start + 1)
  | negation m k ih =>
    have hplace : start + (negation m k).before.length = start + 1 + k.before.length := by
      rw [before, List.length_cons, Nat.add_assoc, Nat.add_comm 1]
    obtain ⟨earlier, later, horigins, hlater⟩ := ih (start + 1)
    refine ⟨earlier, later ++ [⟨m.token .minus, start, .negate⟩], ?_, ?_⟩
    · rw [hplace, plug, Expr.origins, horigins, List.append_assoc _ later]
    · rw [hplace, List.forall_mem_append, List.forall_mem_singleton]
      exact ⟨hlater, .inl (by dsimp only; omega)⟩
  | left op m k r ih =>
    obtain ⟨earlier, later, horigins, hlater⟩ := ih start
    have hlength := k.length_plug e
    refine ⟨earlier, later ++ (r.origins (start + (k.plug e).tokens.length + 1) ++
      [⟨m.token op.kind, start + (k.plug e).tokens.length, .operate op⟩]), ?_, ?_⟩
    · rw [plug, Expr.origins, horigins, before]
      simp only [List.append_assoc]
    · rw [before, List.forall_mem_append, List.forall_mem_append, List.forall_mem_singleton]
      refine ⟨hlater, ?_, .inr (by dsimp only; omega)⟩
      intro o ho
      have := (Expr.place_bounds ho).1
      omega
  | right op m l k ih =>
    have hplace : start + (right op m l k).before.length = start + l.tokens.length + 1 + k.before.length := by
      rw [before, List.length_append, List.length_cons]
      omega
    obtain ⟨earlier, later, horigins, hlater⟩ := ih (start + l.tokens.length + 1)
    refine ⟨l.origins start ++ earlier, later ++ [⟨m.token op.kind, start + l.tokens.length, .operate op⟩], ?_, ?_⟩
    · rw [hplace, plug, Expr.origins, horigins]
      simp only [List.append_assoc]
    · rw [hplace, List.forall_mem_append, List.forall_mem_singleton]
      exact ⟨hlater, .inl (by dsimp only; omega)⟩

/-- An account of the code of a chunk: the origins of its instructions, which stand at the offsets in `placed`. -/
structure Accounts (e : Expr) (chunk : Chunk) (origins : List Origin) (placed : List (Nat × Instruction)) : Prop where
  decode : ∃ stop, Instruction.decode 0 chunk.code.toList = placed ++ [(stop, .halt)]
  /-- Every token but a parenthesis has one instruction. -/
  tokens : (origins.map fun o => (o.token, o.place)).Perm (sites e.tokens 0)
  written : ∀ o ∈ origins, o.token.WrittenAs (e.tokens.take o.place) o.instruction
  lines : List.Forall₂ (fun p o => p.2 = o.instruction ∧
    ∀ n, p.1 ≤ n → n < p.1 + p.2.span → chunk.lines[n]? = some o.token.line) placed origins
  numbers : origins.Pairwise fun o o' => o.token.kind = .number → o'.token.kind = .number → o.place < o'.place
  /-- Behind the instruction of an operator none comes from a token of its operands. -/
  operators : ∀ (k : Context) (part : Expr) (n : Nat), e = k.plug part → part.operatorPlace? = some n →
    ∃ earlier own later, origins = earlier ++ own :: later ∧ own.place = k.before.length + n ∧
      ∀ o ∈ later, o.place < k.before.length ∨ k.before.length + part.tokens.length ≤ o.place

theorem Expr.operators_origins {e part : Expr} {k : Context} {n : Nat} (he : e = k.plug part)
    (hn : part.operatorPlace? = some n) : ∃ earlier own later, e.origins 0 = earlier ++ own :: later ∧
      own.place = k.before.length + n ∧
      ∀ o ∈ later, o.place < k.before.length ∨ k.before.length + part.tokens.length ≤ o.place := by
  obtain ⟨earlier, later, horigins, hlater⟩ := k.origins_plug part 0
  obtain ⟨operands, own, hpart, hplace⟩ := origins_of_operator hn (0 + k.before.length)
  rw [Nat.zero_add] at horigins hlater hpart hplace
  refine ⟨earlier ++ operands, own, later, ?_, hplace, hlater⟩
  rw [he, horigins, hpart]
  simp

theorem Expr.Heads.accounts {limit : Option Nat} {ts : List Token} {e : Expr} {chunk : Chunk} (h : e.Heads limit ts)
    (hc : Compiler.compileWithin limit ts = .ok chunk) :
    Accounts e chunk (e.origins 0) (Instruction.place 0 e.instructions) := by
  have hchunk := Compiler.chunk_of_compileWithin h hc
  refine ⟨?_, e.origins_perm 0, ?_, ?_, e.origins_numbers 0, ?_⟩
  · obtain ⟨stop, hstop⟩ := Instruction.place_append 0 e.instructions [(.halt, Compiler.lastLineOf ts)]
    refine ⟨stop, ?_⟩
    rw [hchunk, Chunk.code_extend, Instruction.decode_eq_place fun _ => Expr.whole_of_mem_program]
    exact hstop
  · have hdue : OperandDue [] := nofun
    have hall : [] ++ e.tokens <+: e.tokens := List.prefix_refl _
    exact h.derives.written hdue hall
  · -- The line of the halt stands behind the lines of the tokens.
    have hchunkLines : chunk.lines.toList =
        (Instruction.lay e.instructions).map Prod.snd ++ [Compiler.lastLineOf ts] := by
      rw [hchunk, Chunk.lines_extend, Expr.program, Instruction.lay_append, List.map_append]
      rfl
    have hwhole : ∀ p ∈ e.instructions, p.1.Whole := fun _ => Expr.whole_of_mem
    have hlines := Instruction.lines_lay hwhole [] [Compiler.lastLineOf ts]
    rw [← hchunkLines] at hlines
    nth_rewrite 2 [e.instructions_eq 0] at hlines
    refine (List.forall₂_map_right_iff.mp hlines).imp ?_
    rintro p o ⟨hinstruction, hline⟩
    refine ⟨hinstruction, ?_⟩
    intro n hle hlt
    rw [← Array.getElem?_toList]
    exact hline n hle hlt
  · intro k part n he hn
    exact Expr.operators_origins he hn

namespace Compiler

theorem compile_accounts {ts : List Token} {chunk : Chunk} (hc : compile ts = .ok chunk) :
    chunk.lines.size = chunk.code.size ∧ ∃ e : Expr, e.Heads (some maxDepth) ts ∧ ts = e.tokens ++ unread ts ∧
      ∃ origins placed, Accounts e chunk origins placed := by
  obtain ⟨e, he⟩ := heads_of_compileWithin hc
  have hsize : chunk.lines.size = chunk.code.size := by
    rw [chunk_of_compileWithin he hc, ← Array.length_toList, ← Array.length_toList, Chunk.lines_extend,
      Chunk.code_extend, List.length_map, List.length_map]
  exact ⟨hsize, e, he, tokens_append_unread he, _, _, he.accounts hc⟩

theorem compile_accounts_product :
    let ts : List Token := [⟨.minus, "-", 1⟩, ⟨.leftParen, "(", 1⟩, ⟨.number, "3", 2⟩, ⟨.star, "*", 3⟩,
      ⟨.number, "4", 4⟩, ⟨.rightParen, ")", 4⟩, ⟨.rightParen, ")", 5⟩]
    let chunk : Chunk := ⟨#[Opcode.pushNumber.cell, Cell.ofNat 3, Opcode.pushNumber.cell, Cell.ofNat 4,
      (Opcode.operate .multiply).cell, Opcode.negate.cell, Opcode.halt.cell], #[2, 2, 4, 4, 3, 1, 5]⟩
    compile ts = .ok chunk ∧ ∃ e : Expr, e.Heads (some maxDepth) ts ∧ ts = e.tokens ++ unread ts ∧
      ∃ origins placed, Accounts e chunk origins placed := by
  intro ts chunk
  have hc : compile ts = .ok chunk := by decide +kernel
  exact ⟨hc, (compile_accounts hc).2⟩

end Compiler

end StackCalc
