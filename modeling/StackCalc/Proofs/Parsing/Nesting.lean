import StackCalc.Proofs.Parsing.Chains

/-!
# The nesting limit

The compiler does as the parser without a limit would, up to the first call that would be one too many.
There it fails.
-/

namespace StackCalc.Compiler

variable {lastLine : Nat} {g : Goal} {p q : Parser} {l r : Expr} {f : Failure} {least : Precedence}
  {t : Token} {op : Operator}

section Limit

variable {k : Nat}

theorem Reads.within (h : Reads (some k) g p e q) (lastLine : Nat) :
    Reads none g p e q ∧ ∀ c ∈ g.calls lastLine p.depth p, c.opened ≤ k := by
  induction h with
  | @expression least p l q e q' hd ho _ iho ihl =>
    obtain ⟨ho', hcalls⟩ := iho
    obtain ⟨hl', hcalls'⟩ := ihl
    rw [ho.depth_eq] at hcalls'
    refine ⟨.expression (by simp) ho' hl', ?_⟩
    rw [calls_expression_of_reads ho' least p.depth]
    refine List.forall_mem_cons.mpr ⟨?_, List.forall_mem_append.mpr ⟨hcalls, hcalls'⟩⟩
    have hlt : p.depth < k := by simpa using hd
    exact hlt
  | number hp ht hx =>
    rw [calls_number hp ht]
    exact ⟨.number hp ht hx, by simp⟩
  | group hp ht _ hq ht' ih =>
    rw [calls_group hp ht]
    exact ⟨.group hp ht ih.1 hq ht', ih.2⟩
  | negation hp ht _ ih =>
    rw [calls_negation hp ht]
    exact ⟨.negation hp ht ih.1, ih.2⟩
  | stop hs =>
    rw [calls_stop hs]
    exact ⟨.stop hs, by simp⟩
  | @operator least l p t op r q e q' hp ht hl hr _ ihr ih =>
    obtain ⟨hr', hcalls⟩ := ihr
    obtain ⟨he', hcalls'⟩ := ih
    rw [Parser.depth_write, hr.depth_eq] at hcalls'
    refine ⟨.operator hp ht hl hr' he', ?_⟩
    rw [calls_operators_of_reads hp ht hl hr']
    exact List.forall_mem_append.mpr ⟨hcalls, hcalls'⟩

theorem find?_eq_none_of_within {cs : List Call} (h : ∀ c ∈ cs, c.opened ≤ k) :
    cs.find? (k < ·.opened) = none := by
  apply List.find?_eq_none.mpr
  intro c hc
  simpa using h c hc

def Wants (t : Token) : Prop := t.kind = .leftParen ∨ t.kind = .minus ∨ ∃ op : Operator, t.kind = op.kind

/-- The call `c` is the first that would be one too many, and the parser fails there. -/
structure Overflows (k lastLine : Nat) (g : Goal) (p : Parser) (f : Failure) (c : Call) : Prop where
  first : (g.calls lastLine p.depth p).find? (k < ·.opened) = some c
  opened : c.opened = k + 1
  failure : f = .parse (.tooDeep (nextLine lastLine c.rest))
  place : (∃ least, g = .expression least ∧ c = ⟨p.depth + 1, p.rest⟩) ∨
    ∃ read t, p.rest = read ++ t :: c.rest ∧ Wants t

namespace Overflows

variable {c : Call}

theorem place_of_wanted (hp : t ∈ p.rest.head?) (ht : Wants t)
    (h : Overflows k lastLine (.expression least) p.skip f c) :
    ∃ read t, p.rest = read ++ t :: c.rest ∧ Wants t := by
  rcases h.place with ⟨-, -, rfl⟩ | ⟨read, t', hc, ht'⟩
  · exact ⟨[], t, Parser.rest_eq hp, ht⟩
  · exact ⟨t :: read, t', by rw [Parser.rest_eq hp, hc]; rfl, ht'⟩

theorem operand (h : Overflows k lastLine .operand p.enter f c) (hd : p.depth < k) :
    Overflows k lastLine (.expression least) p f c := by
  obtain ⟨later, hcalls⟩ := calls_expression lastLine least p.depth p
  refine ⟨?_, h.opened, h.failure, .inr ?_⟩
  · have hfirst : (Goal.operand.calls lastLine (p.depth + 1) p.enter).find? (k < ·.opened) = some c := h.first
    have hroot : ¬k < p.depth + 1 := by omega
    rw [hcalls, List.find?_cons_of_neg (by simpa using hroot), List.find?_append, hfirst, Option.some_or]
  · rcases h.place with ⟨least, hg, -⟩ | hplace
    · cases hg
    · exact hplace

theorem operators (h : Overflows k lastLine (.operators least l) q f c) (hd : p.depth < k)
    (ho : Reads none .operand p.enter l q)
    (hcalls : ∀ c ∈ Goal.operand.calls lastLine (p.depth + 1) p.enter, c.opened ≤ k) :
    Overflows k lastLine (.expression least) p f c := by
  have hroot : ¬k < p.depth + 1 := by omega
  have hfirst := h.first
  rw [ho.depth_eq, Parser.depth_enter] at hfirst
  refine ⟨?_, h.opened, h.failure, .inr ?_⟩
  · rw [calls_expression_of_reads ho, List.find?_cons_of_neg (by simpa using hroot), List.find?_append,
      find?_eq_none_of_within hcalls, hfirst, Option.none_or]
  · rcases h.place with ⟨least, hg, -⟩ | ⟨read, t, hc, ht⟩
    · cases hg
    · obtain ⟨read', hread'⟩ := ho.rest_suffix
      exact ⟨read' ++ read, t, by rw [← Parser.rest_enter, ← hread', hc, List.append_assoc], ht⟩

theorem inner (h : Overflows k lastLine (.expression .unit) p.skip f c) (hp : t ∈ p.rest.head?)
    (ht : t.kind = .leftParen) : Overflows k lastLine .operand p f c where
  first := by
    rw [calls_group hp ht]
    exact h.first
  opened := h.opened
  failure := h.failure
  place := .inr (h.place_of_wanted hp (.inl ht))

theorem negated (h : Overflows k lastLine (.expression .unary) p.skip f c) (hp : t ∈ p.rest.head?)
    (ht : t.kind = .minus) : Overflows k lastLine .operand p f c where
  first := by
    rw [calls_negation hp ht]
    exact h.first
  opened := h.opened
  failure := h.failure
  place := .inr (h.place_of_wanted hp (.inr (.inl ht)))

theorem right (h : Overflows k lastLine (.expression op.rightPrecedence) p.skip f c) (hp : t ∈ p.rest.head?)
    (ht : t.kind = op.kind) (hl : least ≤ op.precedence) :
    Overflows k lastLine (.operators least l) p f c where
  first := by
    have hfirst : ((Goal.expression op.rightPrecedence).calls lastLine p.depth p.skip).find? (k < ·.opened) =
      some c := h.first
    rw [calls_operators hp ht hl, List.find?_append, hfirst, Option.some_or]
  opened := h.opened
  failure := h.failure
  place := .inr (h.place_of_wanted hp (.inr (.inr ⟨op, ht⟩)))

theorem later (h : Overflows k lastLine (.operators least (.binary op t.mark l r))
      (q.write (.operate op) t.line) f c) (hp : t ∈ p.rest.head?)
    (ht : t.kind = op.kind) (hl : least ≤ op.precedence)
    (hr : Reads none (.expression op.rightPrecedence) p.skip r q)
    (hcalls : ∀ c ∈ (Goal.expression op.rightPrecedence).calls lastLine p.depth p.skip, c.opened ≤ k) :
    Overflows k lastLine (.operators least l) p f c where
  first := by
    have hfirst := h.first
    rw [Parser.depth_write, hr.depth_eq, Parser.depth_skip] at hfirst
    rw [calls_operators_of_reads hp ht hl hr, List.find?_append, hfirst, find?_eq_none_of_within hcalls,
      Option.none_or]
  opened := h.opened
  failure := h.failure
  place := by
    rcases h.place with ⟨least, hg, -⟩ | ⟨read, t', hc, ht'⟩
    · cases hg
    · obtain ⟨read', hread'⟩ := hr.rest_suffix
      rw [Parser.rest_write] at hc
      rw [hc] at hread'
      exact .inr ⟨t :: read' ++ read, t', by rw [Parser.rest_eq hp, ← hread']; simp, ht'⟩

end Overflows

theorem Fails.within (h : Fails (some k) lastLine g p f q) (hp : p.depth ≤ k) :
    (Fails none lastLine g p f q ∧ ∀ c ∈ g.calls lastLine p.depth p, c.opened ≤ k) ∨
      ∃ c, Overflows k lastLine g p f c := by
  -- What the run has read before it fails it reads without the limit too, so only its last call can be too many.
  induction h with
  | @tooDeep least p hd =>
    have hk : p.depth = k := Nat.le_antisymm hp (by simpa using hd)
    obtain ⟨later, hcalls⟩ := calls_expression lastLine least p.depth p
    refine .inr ⟨⟨p.depth + 1, p.rest⟩, ?_, by rw [hk], rfl, .inl ⟨least, rfl, rfl⟩⟩
    rw [hcalls, List.find?_cons_of_pos (by simp [hk])]
  | @operand least p f q hd _ ih =>
    have hlt : p.depth < k := by simpa using hd
    rcases ih hlt with ⟨hf, hcalls⟩ | ⟨c, hc⟩
    · refine .inl ⟨.operand (by simp) hf, ?_⟩
      rw [calls_expression_of_fails hf]
      exact List.forall_mem_cons.mpr ⟨hlt, hcalls⟩
    · exact .inr ⟨c, hc.operand hlt⟩
  | @operators least p l q f q' hd ho _ ih =>
    have hlt : p.depth < k := by simpa using hd
    obtain ⟨ho', hcalls⟩ := ho.within lastLine
    rcases ih (by rw [ho.depth_eq]; exact hlt) with ⟨hf, hcalls'⟩ | ⟨c, hc⟩
    · refine .inl ⟨.operators (by simp) ho' hf, ?_⟩
      rw [ho.depth_eq] at hcalls'
      rw [calls_expression_of_reads ho']
      exact List.forall_mem_cons.mpr ⟨hlt, List.forall_mem_append.mpr ⟨hcalls, hcalls'⟩⟩
    · exact .inr ⟨c, hc.operators hlt ho' hcalls⟩
  | noOperand h =>
    rw [calls_noOperand h]
    exact .inl ⟨.noOperand h, by simp⟩
  | invalidNumber hp' ht hx =>
    rw [calls_number hp' ht]
    exact .inl ⟨.invalidNumber hp' ht hx, by simp⟩
  | inner hp' ht _ ih =>
    rcases ih hp with ⟨hf, hcalls⟩ | ⟨c, hc⟩
    · rw [calls_group hp' ht]
      exact .inl ⟨.inner hp' ht hf, hcalls⟩
    · exact .inr ⟨c, hc.inner hp' ht⟩
  | unclosed hp' ht he hc =>
    obtain ⟨he', hcalls⟩ := he.within lastLine
    rw [calls_group hp' ht]
    exact .inl ⟨.unclosed hp' ht he' hc, hcalls⟩
  | negated hp' ht _ ih =>
    rcases ih hp with ⟨hf, hcalls⟩ | ⟨c, hc⟩
    · rw [calls_negation hp' ht]
      exact .inl ⟨.negated hp' ht hf, hcalls⟩
    · exact .inr ⟨c, hc.negated hp' ht⟩
  | right hp' ht hl _ ih =>
    rcases ih hp with ⟨hf, hcalls⟩ | ⟨c, hc⟩
    · rw [calls_operators_of_fails hp' ht hl hf]
      exact .inl ⟨.right hp' ht hl hf, hcalls⟩
    · exact .inr ⟨c, hc.right hp' ht hl⟩
  | later hp' ht hl hr _ ih =>
    obtain ⟨hr', hcalls⟩ := hr.within lastLine
    rcases ih (by rw [Parser.depth_write, hr.depth_eq]; exact hp) with ⟨hf, hcalls'⟩ | ⟨c, hc⟩
    · rw [Parser.depth_write, hr.depth_eq] at hcalls'
      rw [calls_operators_of_reads hp' ht hl hr']
      exact .inl ⟨.later hp' ht hl hr' hf, List.forall_mem_append.mpr ⟨hcalls, hcalls'⟩⟩
    · exact .inr ⟨c, hc.later hp' ht hl hr' hcalls⟩

end Limit

section Compile

variable {ts : List Token}

theorem Overflows.lt_nesting {k : Nat} {c : Call}
    (h : Overflows k (lastLineOf ts) (.expression .unit) { rest := ts } f c) : k < nesting ts := by
  have hc : c ∈ calls ts := List.mem_of_find?_eq_some h.first
  have hle := nesting_le_iff.mp (Nat.le_refl (nesting ts)) c hc
  rw [h.opened] at hle
  exact hle

theorem Overflows.exists_wants {k : Nat} {c : Call} (h : Overflows k lastLine (.expression .unit) { rest := ts } f c)
    (hk : 0 < k) : ∃ read t, ts = read ++ t :: c.rest ∧ Wants t := by
  rcases h.place with ⟨-, -, rfl⟩ | hplace
  · have hopened : 1 = k + 1 := h.opened
    omega
  · exact hplace

theorem compileWithin_cases (k : Nat) (ts : List Token) :
    (nesting ts ≤ k ∧ compileWithin (some k) ts = compileWithin none ts) ∨
      ∃ c, Overflows k (lastLineOf ts) (.expression .unit) { rest := ts }
        (.parse (.tooDeep (nextLine (lastLineOf ts) c.rest))) c ∧
        compileWithin (some k) ts = .error (.parse (.tooDeep (nextLine (lastLineOf ts) c.rest))) := by
  rcases compileWithin_runs (some k) ts with ⟨e, q, hreads, hc⟩ | ⟨f, q, hfails, hc⟩
  · obtain ⟨hreads', hcalls⟩ := hreads.within (lastLineOf ts)
    exact .inl ⟨nesting_le_iff.mpr hcalls, by rw [hc, compileWithin_of_reads hreads']⟩
  · rcases hfails.within (Nat.zero_le k) with ⟨hfails', hcalls⟩ | ⟨c, hoverflows⟩
    · exact .inl ⟨nesting_le_iff.mpr hcalls, by rw [hc, compileWithin_of_fails hfails']⟩
    · obtain rfl := hoverflows.failure
      exact .inr ⟨c, hoverflows, hc⟩

end Compile

end StackCalc.Compiler
