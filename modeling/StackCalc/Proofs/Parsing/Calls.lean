import Mathlib.Logic.Basic
import StackCalc.Proofs.Parsing.Language

/-!
# Calls for expressions

`calls ts` lists the calls for expressions that the parser without a limit makes on `ts`, in order, each
with the number of calls that are open then. `nesting ts` is the greatest of these numbers; for the
tokens of a tree it is what the tree needs.
-/

namespace StackCalc

open StackCalc.Parser (Reading)

/-- A call for an expression: how many are open then, itself included, and what is left to read. -/
structure Call where
  opened : Nat
  rest : List Token
deriving DecidableEq, Repr

namespace Compiler

section Calls

def callsAfter {p : Parser} (reading : Reading p)
    (next : (q : Parser) → q.rest.length ≤ p.rest.length → List Call) : List Call :=
  match reading.result with
  | .ok () => next reading.parser reading.forward
  | .error _ => []

variable (lastLine : Nat)

mutual

def expressionCalls (least : Precedence) (n : Nat) (p : Parser) : List Call :=
  ⟨n + 1, p.rest⟩ :: (operandCalls (n + 1) p.enter ++
    callsAfter (operand none lastLine p.enter) fun q _ => operatorsCalls least (n + 1) q)
termination_by 3 * p.rest.length + 2
decreasing_by
  · simp
  · rename_i h
    rw [Parser.rest_enter] at h
    omega

def operandCalls (n : Nat) (p : Parser) : List Call :=
  match _h : p.rest.head? with
  | none => []
  | some t =>
    match t.kind.rule.opening? with
    | none | some .number => []
    | some .group => expressionCalls .unit n p.skip
    | some .negation => expressionCalls .unary n p.skip
termination_by 3 * p.rest.length + 1
decreasing_by
  all_goals
    have := Parser.skip_length_lt _h
    omega

def operatorsCalls (least : Precedence) (n : Nat) (p : Parser) : List Call :=
  match _h : p.rest.head? with
  | none => []
  | some t =>
    let rule := t.kind.rule
    if rule.precedence = .none ∨ ¬least ≤ rule.precedence then []
    else if rule.joins then
      expressionCalls t.kind.rightPrecedence n p.skip ++
        callsAfter (expression none lastLine t.kind.rightPrecedence p.skip) fun q _ =>
          callsAfter (writeOperator t q) fun q _ => operatorsCalls least n q
    else []
termination_by 3 * p.rest.length
decreasing_by
  all_goals
    have := Parser.skip_length_lt _h
    omega

end

end Calls

def calls (ts : List Token) : List Call := expressionCalls (lastLineOf ts) .unit 0 { rest := ts }

def Goal.calls (lastLine n : Nat) : Goal → Parser → List Call
  | .expression least, p => expressionCalls lastLine least n p
  | .operand, p => operandCalls lastLine n p
  | .operators least _, p => operatorsCalls lastLine least n p

variable {limit : Option Nat} {lastLine n : Nat} {g : Goal} {p q : Parser} {e l r : Expr} {f : Failure}
  {least : Precedence} {t : Token} {op : Operator}

section Equations

theorem callsAfter_of_reads {reading : Reading p} (h : Describes limit lastLine g reading)
    (hr : Reads limit g p e q) (next : (q : Parser) → q.rest.length ≤ p.rest.length → List Call) :
    ∃ hq, callsAfter reading next = next q hq := by
  rcases h with ⟨e', he, hresult⟩ | ⟨f, hf, -⟩
  · obtain ⟨rfl, rfl⟩ := hr.unique he
    exact ⟨reading.forward, by rw [callsAfter, hresult]⟩
  · exact absurd hr hf.not_reads

theorem callsAfter_of_fails {reading : Reading p} (h : Describes limit lastLine g reading)
    (hf : Fails limit lastLine g p f q) (next : (q : Parser) → q.rest.length ≤ p.rest.length → List Call) :
    callsAfter reading next = [] := by
  rcases h with ⟨e, he, -⟩ | ⟨f', -, hresult⟩
  · exact absurd he hf.not_reads
  · rw [callsAfter, hresult]

theorem calls_expression (lastLine : Nat) (least : Precedence) (n : Nat) (p : Parser) : ∃ later,
    (Goal.expression least).calls lastLine n p =
      ⟨n + 1, p.rest⟩ :: (Goal.operand.calls lastLine (n + 1) p.enter ++ later) :=
  ⟨_, by rw [Goal.calls, expressionCalls, Goal.calls]⟩

theorem calls_expression_of_reads (h : Reads none .operand p.enter l q) (least : Precedence) (n : Nat) :
    (Goal.expression least).calls lastLine n p = ⟨n + 1, p.rest⟩ ::
      (Goal.operand.calls lastLine (n + 1) p.enter ++ (Goal.operators least l).calls lastLine (n + 1) q) := by
  have hruns : Describes none lastLine .operand (operand none lastLine p.enter) := operand_runs p.enter
  obtain ⟨hq, hnext⟩ := callsAfter_of_reads hruns h fun q _ => operatorsCalls lastLine least (n + 1) q
  rw [Goal.calls, expressionCalls, hnext]
  rfl

theorem calls_expression_of_fails (h : Fails none lastLine .operand p.enter f q) (least : Precedence)
    (n : Nat) : (Goal.expression least).calls lastLine n p =
      ⟨n + 1, p.rest⟩ :: Goal.operand.calls lastLine (n + 1) p.enter := by
  rw [Goal.calls, expressionCalls, callsAfter_of_fails (operand_runs p.enter) h, List.append_nil]
  rfl

theorem calls_noOperand (h : ¬BeginsOperand p.rest) : Goal.operand.calls lastLine n p = [] := by
  change operandCalls lastLine n p = []
  rw [operandCalls]
  split
  case h_1 => rfl
  case h_2 t hp =>
    have hnone : t.kind.rule.opening? = none := opening?_eq_none.mpr fun hk => h ⟨t, hp, hk⟩
    simp only [hnone]

theorem calls_number (hp : t ∈ p.rest.head?) (ht : t.kind = .number) :
    Goal.operand.calls lastLine n p = [] := by
  change operandCalls lastLine n p = []
  rw [operandCalls]
  split
  case h_1 => rfl
  case h_2 t' hp' =>
    cases Option.mem_unique hp hp'
    simp only [opening?_eq_number.mpr ht]

theorem calls_group (hp : t ∈ p.rest.head?) (ht : t.kind = .leftParen) :
    Goal.operand.calls lastLine n p = (Goal.expression .unit).calls lastLine n p.skip := by
  change operandCalls lastLine n p = expressionCalls lastLine .unit n p.skip
  rw [operandCalls]
  split
  case h_1 hnone => simp_all
  case h_2 t' hp' =>
    cases Option.mem_unique hp hp'
    simp only [opening?_eq_group.mpr ht]

theorem calls_negation (hp : t ∈ p.rest.head?) (ht : t.kind = .minus) :
    Goal.operand.calls lastLine n p = (Goal.expression .unary).calls lastLine n p.skip := by
  change operandCalls lastLine n p = expressionCalls lastLine .unary n p.skip
  rw [operandCalls]
  split
  case h_1 hnone => simp_all
  case h_2 t' hp' =>
    cases Option.mem_unique hp hp'
    simp only [opening?_eq_negation.mpr ht]

theorem rule_of_stops {ts : List Token} (h : Stops least ts) (ht : t ∈ ts.head?) :
    t.kind.rule.precedence = .none ∨ ¬least ≤ t.kind.rule.precedence := by
  by_cases hk : t.kind.rule.precedence = .none
  · exact .inl hk
  · obtain ⟨op, hop⟩ := exists_operator hk
    rw [hop]
    exact .inr (h t ht op hop)

theorem calls_stop (h : Stops least p.rest) : (Goal.operators least l).calls lastLine n p = [] := by
  change operatorsCalls lastLine least n p = []
  rw [operatorsCalls]
  split
  case h_1 => rfl
  case h_2 t hp => exact if_pos (rule_of_stops h hp)

theorem calls_operators (hp : t ∈ p.rest.head?) (ht : t.kind = op.kind) (hl : least ≤ op.precedence) :
    (Goal.operators least l).calls lastLine n p =
      (Goal.expression op.rightPrecedence).calls lastLine n p.skip ++
        callsAfter (expression none lastLine op.rightPrecedence p.skip) fun q _ =>
          operatorsCalls lastLine least n (q.write (.operate op) t.line) := by
  change operatorsCalls lastLine least n p = expressionCalls lastLine op.rightPrecedence n p.skip ++ _
  rw [operatorsCalls]
  split
  case h_1 hnone => simp_all
  case h_2 t' hp' =>
    cases Option.mem_unique hp hp'
    have hrule : ¬(op.precedence = .none ∨ ¬least ≤ op.precedence) :=
      not_or.mpr ⟨precedence_ne_none op, not_not.mpr hl⟩
    have hwrite (q : Parser) : callsAfter (writeOperator t q) (fun q _ => operatorsCalls lastLine least n q) =
        operatorsCalls lastLine least n (q.write (.operate op) t.line) := by
      rw [writeOperator_kind ht, callsAfter]
    simp only [ht, joins_kind, rightPrecedence_kind, ↓reduceIte, hwrite]
    exact if_neg hrule

theorem calls_operators_of_reads (hp : t ∈ p.rest.head?) (ht : t.kind = op.kind)
    (hl : least ≤ op.precedence) (hr : Reads none (.expression op.rightPrecedence) p.skip r q) :
    (Goal.operators least l).calls lastLine n p =
      (Goal.expression op.rightPrecedence).calls lastLine n p.skip ++
        (Goal.operators least (.binary op t.mark l r)).calls lastLine n (q.write (.operate op) t.line) := by
  have hruns : Describes none lastLine (.expression op.rightPrecedence)
      (expression none lastLine op.rightPrecedence p.skip) := expression_runs op.rightPrecedence p.skip
  obtain ⟨hq, hnext⟩ := callsAfter_of_reads hruns hr
    fun q _ => operatorsCalls lastLine least n (q.write (.operate op) t.line)
  rw [calls_operators hp ht hl, hnext]
  rfl

theorem calls_operators_of_fails (hp : t ∈ p.rest.head?) (ht : t.kind = op.kind)
    (hl : least ≤ op.precedence) (hf : Fails none lastLine (.expression op.rightPrecedence) p.skip f q) :
    (Goal.operators least l).calls lastLine n p =
      (Goal.expression op.rightPrecedence).calls lastLine n p.skip := by
  rw [calls_operators hp ht hl, callsAfter_of_fails (expression_runs op.rightPrecedence p.skip) hf,
    List.append_nil]

end Equations

section Need

def peak (n : Nat) (cs : List Call) : Nat := (cs.map Call.opened).foldr max n

theorem peak_cons (n : Nat) (c : Call) (cs : List Call) : peak n (c :: cs) = max c.opened (peak n cs) := rfl

theorem le_peak (n : Nat) (cs : List Call) : n ≤ peak n cs := by
  induction cs with
  | nil => exact Nat.le_refl n
  | cons c cs ih => exact Nat.le_trans ih (Nat.le_max_right ..)

theorem peak_append (n : Nat) (cs cs' : List Call) : peak n (cs ++ cs') = max (peak n cs) (peak n cs') := by
  induction cs with
  | nil => exact (Nat.max_eq_right (le_peak n cs')).symm
  | cons c cs ih => rw [List.cons_append, peak_cons, peak_cons, ih, Nat.max_assoc]

theorem peak_call (n : Nat) (ts : List Token) (cs : List Call) :
    peak n (⟨n + 1, ts⟩ :: cs) = peak (n + 1) cs := by
  induction cs with
  | nil => exact Nat.max_eq_left (Nat.le_succ n)
  | cons c cs ih =>
    simp only [peak_cons] at ih ⊢
    omega

theorem peak_le_iff {k : Nat} {cs : List Call} : peak n cs ≤ k ↔ n ≤ k ∧ ∀ c ∈ cs, c.opened ≤ k := by
  induction cs with
  | nil => simp [peak]
  | cons c cs ih =>
    rw [peak_cons, Nat.max_le, ih, List.forall_mem_cons]
    exact and_left_comm

def Goal.Peaks (lastLine n : Nat) (g : Goal) (p : Parser) (e : Expr) : Prop :=
  match g with
  | .expression _ => peak n (g.calls lastLine n p) = n + e.need
  | .operand => peak n (g.calls lastLine n p) + 1 = n + e.need
  | .operators _ l => max (n + l.need) (peak n (g.calls lastLine n p) + 1) = n + e.need

theorem Reads.peaks (h : Reads none g p e q) (lastLine n : Nat) : g.Peaks lastLine n p e := by
  induction h generalizing n with
  | @expression least p l q e q' _ ho _ iho ihl =>
    -- The operand and its operators are read in one call, which is open beside the `n` others.
    have hoperand := iho (n + 1)
    have hoperators := ihl (n + 1)
    simp only [Goal.Peaks] at hoperand hoperators ⊢
    rw [calls_expression_of_reads ho, peak_call, peak_append]
    omega
  | number hp ht hx =>
    simp only [Goal.Peaks, calls_number hp ht, Expr.need]
    rfl
  | group hp ht _ _ _ ih =>
    have hinner := ih n
    simp only [Goal.Peaks, calls_group hp ht, Expr.need] at hinner ⊢
    omega
  | negation hp ht _ ih =>
    have hinner := ih n
    simp only [Goal.Peaks, calls_negation hp ht, Expr.need] at hinner ⊢
    omega
  | @stop _ l _ hs =>
    have hpos := l.need_pos
    have hnil : peak n [] = n := rfl
    simp only [Goal.Peaks, calls_stop hs, hnil]
    omega
  | operator hp ht hl hr _ ihr ih =>
    have hright := ihr n
    have hlater := ih n
    simp only [Goal.Peaks, Expr.need] at hright hlater ⊢
    rw [calls_operators_of_reads hp ht hl hr, peak_append]
    omega

def nesting (ts : List Token) : Nat := peak 0 (calls ts)

theorem nesting_le_iff {k : Nat} {ts : List Token} : nesting ts ≤ k ↔ ∀ c ∈ calls ts, c.opened ≤ k := by
  simp [nesting, peak_le_iff]

theorem nesting_eq_need {ts : List Token} (h : e.Heads none ts) : nesting ts = e.need := by
  obtain ⟨q, hq, -⟩ := reads_of_heads h
  have hpeak : nesting ts = 0 + e.need := hq.peaks (lastLineOf ts) 0
  rwa [Nat.zero_add] at hpeak

end Need

end Compiler

end StackCalc
