import StackCalc.Compiler
import StackCalc.Expr.Basic

/-!
# Runs of the parser

`Reads limit g p e q` says that a parser `p` with the goal `g` ends well as `q` and has read the tree
`e`, and `Fails limit lastLine g p f q` that it ends as `q` with the error `f`. A parser has one end,
and it has read one tree.
-/

namespace StackCalc

def Operator.precedence (op : Operator) : Precedence := op.kind.rule.precedence

def Operator.rightPrecedence (op : Operator) : Precedence := op.kind.rightPrecedence

theorem Operator.kind_injective {op op' : Operator} (h : op.kind = op'.kind) : op = op' := by
  rw [← Option.some_inj, ← Operator.operator?_kind op, h, Operator.operator?_kind]

def Token.mark (t : Token) : Mark := ⟨t.lexeme, t.line⟩

namespace Compiler

inductive Goal where
  | expression (least : Precedence)
  | operand
  | operators (least : Precedence) (left : Expr)

def BeginsOperand (ts : List Token) : Prop :=
  ∃ t ∈ ts.head?, t.kind = .number ∨ t.kind = .leftParen ∨ t.kind = .minus

def Closes (ts : List Token) : Prop := ∃ t ∈ ts.head?, t.kind = .rightParen

def Stops (least : Precedence) (ts : List Token) : Prop :=
  ∀ t ∈ ts.head?, ∀ op : Operator, t.kind = op.kind → ¬least ≤ op.precedence

inductive Reads (limit : Option Nat) : Goal → Parser → Expr → Parser → Prop where
  | expression {least p l q e q'} : ¬limit.any (· ≤ p.depth) → Reads limit .operand p.enter l q →
    Reads limit (.operators least l) q e q' → Reads limit (.expression least) p e q'.leave
  | number {p t x} : t ∈ p.rest.head? → t.kind = .number → Numeral.read? t.lexeme = some x →
    Reads limit .operand p (.number t.mark x) (p.skip.writeNumber x t.line)
  | group {p t e q t'} : t ∈ p.rest.head? → t.kind = .leftParen →
    Reads limit (.expression .unit) p.skip e q → t' ∈ q.rest.head? → t'.kind = .rightParen →
    Reads limit .operand p (.group t.mark e t'.mark) q.skip
  | negation {p t e q} : t ∈ p.rest.head? → t.kind = .minus →
    Reads limit (.expression .unary) p.skip e q →
    Reads limit .operand p (.negation t.mark e) (q.write .negate t.line)
  | stop {least l p} : Stops least p.rest → Reads limit (.operators least l) p l p
  | operator {least l p t op r q e q'} : t ∈ p.rest.head? → t.kind = Operator.kind op →
    least ≤ op.precedence → Reads limit (.expression op.rightPrecedence) p.skip r q →
    Reads limit (.operators least (.binary op t.mark l r)) (q.write (.operate op) t.line) e q' →
    Reads limit (.operators least l) p e q'

inductive Fails (limit : Option Nat) (lastLine : Nat) : Goal → Parser → Failure → Parser → Prop where
  | tooDeep {least p} : limit.any (· ≤ p.depth) →
    Fails limit lastLine (.expression least) p (.parse (.tooDeep (nextLine lastLine p.rest))) p
  | operand {least p f q} : ¬limit.any (· ≤ p.depth) → Fails limit lastLine .operand p.enter f q →
    Fails limit lastLine (.expression least) p f q.leave
  | operators {least p l q f q'} : ¬limit.any (· ≤ p.depth) → Reads limit .operand p.enter l q →
    Fails limit lastLine (.operators least l) q f q' →
    Fails limit lastLine (.expression least) p f q'.leave
  | noOperand {p} : ¬BeginsOperand p.rest →
    Fails limit lastLine .operand p (expressionExpected lastLine p.rest) p.skip
  | invalidNumber {p t} : t ∈ p.rest.head? → t.kind = .number → Numeral.read? t.lexeme = none →
    Fails limit lastLine .operand p (.parse (.invalidNumber t.lexeme t.line)) p.skip
  | inner {p t f q} : t ∈ p.rest.head? → t.kind = .leftParen →
    Fails limit lastLine (.expression .unit) p.skip f q → Fails limit lastLine .operand p f q
  | unclosed {p t e q} : t ∈ p.rest.head? → t.kind = .leftParen →
    Reads limit (.expression .unit) p.skip e q → ¬Closes q.rest →
    Fails limit lastLine .operand p (unclosedGroup lastLine q.rest) q.skip
  | negated {p t f q} : t ∈ p.rest.head? → t.kind = .minus →
    Fails limit lastLine (.expression .unary) p.skip f q → Fails limit lastLine .operand p f q
  | right {least l p t op f q} : t ∈ p.rest.head? → t.kind = Operator.kind op →
    least ≤ op.precedence → Fails limit lastLine (.expression op.rightPrecedence) p.skip f q →
    Fails limit lastLine (.operators least l) p f q
  | later {least l p t op r q f q'} : t ∈ p.rest.head? → t.kind = Operator.kind op →
    least ≤ op.precedence → Reads limit (.expression op.rightPrecedence) p.skip r q →
    Fails limit lastLine (.operators least (.binary op t.mark l r)) (q.write (.operate op) t.line) f q' →
    Fails limit lastLine (.operators least l) p f q'

theorem operator_unique {ts : List Token} {t t' : Token} {op op' : Operator} (hp : t ∈ ts.head?)
    (hp' : t' ∈ ts.head?) (ht : t.kind = op.kind) (ht' : t'.kind = op'.kind) : t = t' ∧ op = op' := by
  cases Option.mem_unique hp hp'
  exact ⟨rfl, Operator.kind_injective (ht.symm.trans ht')⟩

variable {limit : Option Nat} {lastLine : Nat} {g : Goal} {p q q' : Parser}

theorem Reads.unique {e e' : Expr} (h : Reads limit g p e q) (h' : Reads limit g p e' q') :
    e = e' ∧ q = q' := by
  induction h generalizing e' q' with
  | expression _ _ _ iho ihl =>
    obtain ⟨_, ho, hl⟩ := h'
    obtain ⟨rfl, rfl⟩ := iho ho
    obtain ⟨rfl, rfl⟩ := ihl hl
    exact ⟨rfl, rfl⟩
  | number => cases h' <;> simp_all
  | group hp _ _ hq _ ih =>
    cases h' with
    | group hp' _ he hq' =>
      obtain ⟨rfl, rfl⟩ := ih he
      cases Option.mem_unique hp hp'
      cases Option.mem_unique hq hq'
      exact ⟨rfl, rfl⟩
    | _ => simp_all
  | negation hp _ _ ih =>
    cases h' with
    | negation hp' _ he =>
      obtain ⟨rfl, rfl⟩ := ih he
      cases Option.mem_unique hp hp'
      exact ⟨rfl, rfl⟩
    | _ => simp_all
  | stop hs =>
    cases h' with
    | stop => exact ⟨rfl, rfl⟩
    | operator hp ht hl => exact absurd hl (hs _ hp _ ht)
  | operator hp ht hl _ _ ih ihl =>
    cases h' with
    | stop hs => exact absurd hl (hs _ hp _ ht)
    | operator hp' ht' _ hr he =>
      obtain ⟨rfl, rfl⟩ := operator_unique hp hp' ht ht'
      obtain ⟨rfl, rfl⟩ := ih hr
      exact ihl he

theorem Fails.not_reads {f : Failure} {e : Expr} (h : Fails limit lastLine g p f q) :
    ¬Reads limit g p e q' := by
  intro h'
  induction h generalizing e q' with
  | tooDeep hd =>
    obtain ⟨hd', -, -⟩ := h'
    exact hd' hd
  | operand _ _ ih =>
    obtain ⟨-, ho, -⟩ := h'
    exact ih ho
  | operators _ ho _ ih =>
    obtain ⟨-, ho', hl⟩ := h'
    obtain ⟨rfl, rfl⟩ := ho.unique ho'
    exact ih hl
  | noOperand h => cases h' <;> simp_all [BeginsOperand]
  | invalidNumber => cases h' <;> simp_all
  | inner hp ht _ ih =>
    cases h' with
    | group _ _ he => exact ih he
    | _ => simp_all
  | unclosed hp ht he hc =>
    cases h' with
    | group _ _ he' hq ht' =>
      obtain ⟨rfl, rfl⟩ := he.unique he'
      exact hc ⟨_, hq, ht'⟩
    | _ => simp_all
  | negated hp ht _ ih =>
    cases h' with
    | negation _ _ he => exact ih he
    | _ => simp_all
  | right hp ht hl _ ih =>
    cases h' with
    | stop hs => exact hs _ hp _ ht hl
    | operator hp' ht' _ hr =>
      obtain ⟨rfl, rfl⟩ := operator_unique hp hp' ht ht'
      exact ih hr
  | later hp ht hl hr _ ih =>
    cases h' with
    | stop hs => exact hs _ hp _ ht hl
    | operator hp' ht' _ hr' he =>
      obtain ⟨rfl, rfl⟩ := operator_unique hp hp' ht ht'
      obtain ⟨rfl, rfl⟩ := hr.unique hr'
      exact ih he

theorem Fails.unique {f f' : Failure} (h : Fails limit lastLine g p f q)
    (h' : Fails limit lastLine g p f' q') : f = f' ∧ q = q' := by
  induction h generalizing f' q' with
  | tooDeep hd => cases h' <;> simp_all
  | operand hd hf ih =>
    cases h' with
    | tooDeep hd' => exact absurd hd' hd
    | operand _ hf' =>
      obtain ⟨rfl, rfl⟩ := ih hf'
      exact ⟨rfl, rfl⟩
    | operators _ ho => exact absurd ho hf.not_reads
  | operators hd ho _ ih =>
    cases h' with
    | tooDeep hd' => exact absurd hd' hd
    | operand _ hf => exact absurd ho hf.not_reads
    | operators _ ho' hf =>
      obtain ⟨rfl, rfl⟩ := ho.unique ho'
      obtain ⟨rfl, rfl⟩ := ih hf
      exact ⟨rfl, rfl⟩
  | noOperand => cases h' <;> simp_all [BeginsOperand]
  | invalidNumber => cases h' <;> simp_all [BeginsOperand]
  | inner hp ht hf ih =>
    cases h' with
    | inner _ _ hf' => exact ih hf'
    | unclosed _ _ he => exact absurd he hf.not_reads
    | _ => simp_all [BeginsOperand]
  | unclosed hp ht he hc =>
    cases h' with
    | inner _ _ hf => exact absurd he hf.not_reads
    | unclosed _ _ he' =>
      obtain ⟨rfl, rfl⟩ := he.unique he'
      exact ⟨rfl, rfl⟩
    | _ => simp_all [BeginsOperand]
  | negated hp ht hf ih =>
    cases h' with
    | negated _ _ hf' => exact ih hf'
    | _ => simp_all [BeginsOperand]
  | right hp ht _ hf ih =>
    cases h' with
    | right hp' ht' _ hf' =>
      obtain ⟨rfl, rfl⟩ := operator_unique hp hp' ht ht'
      exact ih hf'
    | later hp' ht' _ hr =>
      obtain ⟨rfl, rfl⟩ := operator_unique hp hp' ht ht'
      exact absurd hr hf.not_reads
  | later hp ht _ hr _ ih =>
    cases h' with
    | right hp' ht' _ hf =>
      obtain ⟨rfl, rfl⟩ := operator_unique hp hp' ht ht'
      exact absurd hr hf.not_reads
    | later hp' ht' _ hr' hf =>
      obtain ⟨rfl, rfl⟩ := operator_unique hp hp' ht ht'
      obtain ⟨rfl, rfl⟩ := hr.unique hr'
      exact ih hf

end Compiler

end StackCalc
