import Mathlib.Control.Monad.Basic
import StackCalc.Proofs.Parsing.Grammar

/-!
# Where a failure lies

A parser that fails, unless it is too deep, names the token at which it fails. It has not looked beyond
that token, and what it has read before can be completed to an expression.
-/

namespace StackCalc

def Failure.IsSyntaxError (found : String) (line : Nat) (f : Failure) : Prop :=
  f = .parse (.expressionExpected found line) ∨ f = .parse (.unclosedGroup found line) ∨
    f = .parse (.invalidNumber found line)

namespace Compiler

variable {limit : Option Nat} {lastLine : Nat} {g : Goal} {p q : Parser} {e l : Expr} {f : Failure}
  {least : Precedence} {t : Token} {ts ts' read : List Token}

section Blame

/-- The error names the first of the tokens, or the end of the input if there is none. -/
inductive Names (lastLine : Nat) (ts : List Token) : Failure → Prop where
  | expressionExpected : Names lastLine ts (expressionExpected lastLine ts)
  | unclosedGroup : Names lastLine ts (unclosedGroup lastLine ts)
  | invalidNumber {t : Token} : t ∈ ts.head? → Names lastLine ts (.parse (.invalidNumber t.lexeme t.line))

/-- A parser that has read `read` fails at `ts`. Any tokens that begin like `ts` would make it fail
alike, and others in their place would make it end well. -/
structure Blames (limit : Option Nat) (lastLine : Nat) (g : Goal) (p : Parser) (f : Failure)
    (read ts : List Token) : Prop where
  rest_eq : p.rest = read ++ ts
  names : Names lastLine ts f
  unseen : ∀ t ∈ ts.head?, ∀ lastLine' ts', t ∈ ts'.head? →
    ∃ q, Fails limit lastLine' g { p with rest := read ++ ts' } f q
  completion : ∃ v, ∀ rest, (∀ least, Stops least rest) →
    ∃ e q, Reads limit g { p with rest := read ++ v ++ rest } e q ∧ q.rest = rest
  begun : ∀ least l, g = .operators least l → read ≠ []

def zeroToken : Token := ⟨.number, "0", 1⟩

def closingToken : Token := ⟨.rightParen, ")", 1⟩

theorem read?_zeroToken : Numeral.read? zeroToken.lexeme = some Cell.zero := by
  decide +kernel

theorem expressionExpected_eq {lastLine' : Nat} (h : t ∈ ts.head?) (h' : t ∈ ts'.head?) :
    expressionExpected lastLine ts = expressionExpected lastLine' ts' := by
  simp [expressionExpected, found, nextLine, Option.mem_def.mp h, Option.mem_def.mp h']

theorem unclosedGroup_eq {lastLine' : Nat} (h : t ∈ ts.head?) (h' : t ∈ ts'.head?) :
    unclosedGroup lastLine ts = unclosedGroup lastLine' ts' := by
  simp [unclosedGroup, found, nextLine, Option.mem_def.mp h, Option.mem_def.mp h']

namespace Blames

theorem number_completion (limit : Option Nat) (p : Parser) : ∃ v, ∀ rest, (∀ least, Stops least rest) →
    ∃ e q, Reads limit .operand { p with rest := [] ++ v ++ rest } e q ∧ q.rest = rest := by
  refine ⟨[zeroToken], fun rest _ => ?_⟩
  exact ⟨_, _, .number (p := { p with rest := zeroToken :: rest }) rfl rfl read?_zeroToken, rfl⟩

theorem noOperand (h : ¬BeginsOperand p.rest) :
    Blames limit lastLine .operand p (expressionExpected lastLine p.rest) [] p.rest where
  rest_eq := rfl
  names := .expressionExpected
  unseen t ht lastLine' ts' ht' := by
    have hts' : ¬BeginsOperand ts' := by
      rwa [BeginsOperand, Option.mem_def.mp ht', ← Option.mem_def.mp ht]
    rw [expressionExpected_eq ht ht']
    exact ⟨_, .noOperand (p := { p with rest := ts' }) hts'⟩
  completion := number_completion limit p
  begun := by simp

theorem invalidNumber (hp : t ∈ p.rest.head?) (ht : t.kind = .number)
    (hx : Numeral.read? t.lexeme = none) :
    Blames limit lastLine .operand p (.parse (.invalidNumber t.lexeme t.line)) [] p.rest where
  rest_eq := rfl
  names := .invalidNumber hp
  unseen t' ht' lastLine' ts' hts' := by
    cases Option.mem_unique hp ht'
    exact ⟨_, .invalidNumber (p := { p with rest := ts' }) hts' ht hx⟩
  completion := number_completion limit p
  begun := by simp

theorem operand (hd : ¬limit.any (· ≤ p.depth)) (h : Blames limit lastLine .operand p.enter f read ts) :
    Blames limit lastLine (.expression least) p f read ts where
  rest_eq := h.rest_eq
  names := h.names
  unseen t ht lastLine' ts' ht' := by
    obtain ⟨q, hq⟩ := h.unseen t ht lastLine' ts' ht'
    exact ⟨_, .operand (p := { p with rest := read ++ ts' }) hd hq⟩
  completion := by
    obtain ⟨v, hv⟩ := h.completion
    refine ⟨v, fun rest hrest => ?_⟩
    obtain ⟨e, q, he, rfl⟩ := hv rest hrest
    exact ⟨e, _, .expression (p := { p with rest := read ++ v ++ q.rest }) hd he (.stop (hrest _)), rfl⟩
  begun := by simp

theorem operators (hd : ¬limit.any (· ≤ p.depth)) (ho : Reads limit .operand p.enter l q)
    (h : Blames limit lastLine (.operators least l) q f read ts) :
    ∃ read', Blames limit lastLine (.expression least) p f read' ts := by
  obtain ⟨read', hread', ho⟩ := ho.exists_read_before h.rest_eq (h.begun _ _ rfl)
  refine ⟨read' ++ read, hread', h.names, ?_, ?_, by simp⟩
  · intro t ht lastLine' ts' ht'
    obtain ⟨q', hq'⟩ := h.unseen t ht lastLine' ts' ht'
    exact ⟨_, .operators (p := { p with rest := read' ++ read ++ ts' }) hd (ho ts') hq'⟩
  · obtain ⟨v, hv⟩ := h.completion
    refine ⟨v, fun rest hrest => ?_⟩
    obtain ⟨e, q', he, rfl⟩ := hv rest hrest
    have hoperand := ho (v ++ q'.rest)
    rw [← List.append_assoc, ← List.append_assoc] at hoperand
    exact ⟨e, _, .expression (p := { p with rest := read' ++ read ++ v ++ q'.rest }) hd hoperand he, rfl⟩

theorem inner (hp : t ∈ p.rest.head?) (ht : t.kind = .leftParen)
    (h : Blames limit lastLine (.expression .unit) p.skip f read ts) :
    Blames limit lastLine .operand p f (t :: read) ts where
  rest_eq := rest_eq_cons_append hp h.rest_eq
  names := h.names
  unseen t' ht' lastLine' ts' hts' := by
    obtain ⟨q, hq⟩ := h.unseen t' ht' lastLine' ts' hts'
    exact ⟨_, .inner (p := { p with rest := t :: (read ++ ts') }) rfl ht hq⟩
  completion := by
    obtain ⟨v, hv⟩ := h.completion
    refine ⟨v ++ [closingToken], fun rest _ => ?_⟩
    obtain ⟨e, q, he, hq⟩ := hv (closingToken :: rest) fun _ => stops_cons_rightParen rfl
    have hrest : t :: read ++ (v ++ [closingToken]) ++ rest = t :: (read ++ v ++ closingToken :: rest) := by
      simp
    rw [hrest]
    have hclosing : closingToken ∈ q.rest.head? := by rw [hq]; rfl
    refine ⟨_, q.skip, .group (p := { p with rest := t :: (read ++ v ++ closingToken :: rest) })
      rfl ht he hclosing rfl, ?_⟩
    simp [Parser.skip, hq]
  begun := by simp

theorem unclosed (hp : t ∈ p.rest.head?) (ht : t.kind = .leftParen)
    (he : Reads limit (.expression .unit) p.skip e q) (hc : ¬Closes q.rest) :
    ∃ read, Blames limit lastLine .operand p (unclosedGroup lastLine q.rest) read q.rest := by
  obtain ⟨read, hread, he⟩ := he.exists_read
  refine ⟨t :: read, rest_eq_cons_append hp hread, .unclosedGroup, ?_, ?_, by simp⟩
  · intro t' ht' lastLine' ts' hts'
    have hhead : ts'.head? = q.rest.head? := hts'.trans ht'.symm
    have hc' : ¬Closes ts' := by rwa [Closes, hhead]
    rw [unclosedGroup_eq ht' hts']
    exact ⟨_, .unclosed (p := { p with rest := t :: (read ++ ts') }) rfl ht
      (he ts' (endsLike_of_head?_eq hhead.symm)) hc'⟩
  · refine ⟨[closingToken], fun rest _ => ?_⟩
    have hinner := he (closingToken :: rest) fun _ _ => stops_cons_rightParen rfl
    have hrest : t :: read ++ [closingToken] ++ rest = t :: (read ++ closingToken :: rest) := by simp
    rw [hrest]
    exact ⟨_, _, .group (p := { p with rest := t :: (read ++ closingToken :: rest) })
      (q := { q with rest := closingToken :: rest }) rfl ht hinner rfl rfl, rfl⟩

theorem negated (hp : t ∈ p.rest.head?) (ht : t.kind = .minus)
    (h : Blames limit lastLine (.expression .unary) p.skip f read ts) :
    Blames limit lastLine .operand p f (t :: read) ts where
  rest_eq := rest_eq_cons_append hp h.rest_eq
  names := h.names
  unseen t' ht' lastLine' ts' hts' := by
    obtain ⟨q, hq⟩ := h.unseen t' ht' lastLine' ts' hts'
    exact ⟨_, .negated (p := { p with rest := t :: (read ++ ts') }) rfl ht hq⟩
  completion := by
    obtain ⟨v, hv⟩ := h.completion
    refine ⟨v, fun rest hrest => ?_⟩
    obtain ⟨e, q, he, rfl⟩ := hv rest hrest
    exact ⟨_, _, .negation (p := { p with rest := t :: (read ++ v ++ q.rest) }) rfl ht he, rfl⟩
  begun := by simp

theorem right {op : Operator} (hp : t ∈ p.rest.head?) (ht : t.kind = op.kind) (hl : least ≤ op.precedence)
    (h : Blames limit lastLine (.expression op.rightPrecedence) p.skip f read ts) :
    Blames limit lastLine (.operators least l) p f (t :: read) ts where
  rest_eq := rest_eq_cons_append hp h.rest_eq
  names := h.names
  unseen t' ht' lastLine' ts' hts' := by
    obtain ⟨q, hq⟩ := h.unseen t' ht' lastLine' ts' hts'
    exact ⟨_, .right (p := { p with rest := t :: (read ++ ts') }) rfl ht hl hq⟩
  completion := by
    obtain ⟨v, hv⟩ := h.completion
    refine ⟨v, fun rest hrest => ?_⟩
    obtain ⟨r, q, hr, rfl⟩ := hv rest hrest
    exact ⟨_, _, .operator (p := { p with rest := t :: (read ++ v ++ q.rest) }) rfl ht hl hr
      (.stop (hrest _)), rfl⟩
  begun := by simp

theorem later {op : Operator} {r : Expr} (hp : t ∈ p.rest.head?) (ht : t.kind = op.kind)
    (hl : least ≤ op.precedence) (hr : Reads limit (.expression op.rightPrecedence) p.skip r q)
    (h : Blames limit lastLine (.operators least (.binary op t.mark l r)) (q.write (.operate op) t.line) f
      read ts) :
    ∃ read', Blames limit lastLine (.operators least l) p f read' ts := by
  obtain ⟨read', hread', hr⟩ := hr.exists_read_before h.rest_eq (h.begun _ _ rfl)
  refine ⟨t :: (read' ++ read), rest_eq_cons_append hp hread', h.names, ?_, ?_, by simp⟩
  · intro t' ht' lastLine' ts' hts'
    obtain ⟨q', hq'⟩ := h.unseen t' ht' lastLine' ts' hts'
    exact ⟨_, .later (p := { p with rest := t :: (read' ++ read ++ ts') }) rfl ht hl (hr ts') hq'⟩
  · obtain ⟨v, hv⟩ := h.completion
    refine ⟨v, fun rest hrest => ?_⟩
    obtain ⟨e, q', he, rfl⟩ := hv rest hrest
    have hright := hr (v ++ q'.rest)
    rw [← List.append_assoc, ← List.append_assoc] at hright
    exact ⟨e, _, .operator (p := { p with rest := t :: (read' ++ read ++ v ++ q'.rest) }) rfl ht hl hright he,
      rfl⟩

end Blames

theorem Fails.exists_blames (h : Fails limit lastLine g p f q) (hf : ∀ line, f ≠ .parse (.tooDeep line)) :
    ∃ read ts, Blames limit lastLine g p f read ts := by
  induction h with
  | tooDeep => exact absurd rfl (hf _)
  | operand hd _ ih =>
    obtain ⟨read, ts, h⟩ := ih hf
    exact ⟨read, ts, h.operand hd⟩
  | operators hd ho _ ih =>
    obtain ⟨read, ts, h⟩ := ih hf
    obtain ⟨read', h⟩ := h.operators hd ho
    exact ⟨read', ts, h⟩
  | noOperand h => exact ⟨_, _, .noOperand h⟩
  | invalidNumber hp ht hx => exact ⟨_, _, .invalidNumber hp ht hx⟩
  | inner hp ht _ ih =>
    obtain ⟨read, ts, h⟩ := ih hf
    exact ⟨_, ts, h.inner hp ht⟩
  | unclosed hp ht he hc =>
    obtain ⟨read, h⟩ := Blames.unclosed hp ht he hc
    exact ⟨_, _, h⟩
  | negated hp ht _ ih =>
    obtain ⟨read, ts, h⟩ := ih hf
    exact ⟨_, ts, h.negated hp ht⟩
  | right hp ht hl _ ih =>
    obtain ⟨read, ts, h⟩ := ih hf
    exact ⟨_, ts, h.right hp ht hl⟩
  | later hp ht hl hr _ ih =>
    obtain ⟨read, ts, h⟩ := ih hf
    obtain ⟨read', h⟩ := h.later hp ht hl hr
    exact ⟨read', ts, h⟩

end Blame

section Compile

theorem fails_of_compileWithin (h : compileWithin limit ts = .error f) :
    ∃ q, Fails limit (lastLineOf ts) (.expression .unit) { rest := ts } f q := by
  rcases compileWithin_runs limit ts with ⟨e, q, -, hc⟩ | ⟨f', q, hfails, hc⟩
  · cases hc.symm.trans h
  · cases hc.symm.trans h
    exact ⟨q, hfails⟩

theorem Blames.compileWithin_completion (h : Blames limit lastLine (.expression .unit) { rest := ts' } f read ts) :
    ∃ v chunk, compileWithin limit (read ++ v) = .ok chunk := by
  obtain ⟨v, hv⟩ := h.completion
  obtain ⟨e, q, he, -⟩ := hv [] (by simp [Stops])
  rw [List.append_nil] at he
  exact ⟨v, _, compileWithin_of_reads he⟩

end Compile

end Compiler

end StackCalc
