import StackCalc.Proofs.Parsing.Runs

/-!
# Readings of the parser

Every reading of the parser ends as one of its runs. Two of the errors that a reading can name are
therefore out of reach: where the rule of a kind promises a handler there is one.
-/

namespace StackCalc.Compiler

open StackCalc.Parser (Reading)

section Rules

theorem opening?_eq_none {k : Kind} :
    k.rule.opening? = none ↔ ¬(k = .number ∨ k = .leftParen ∨ k = .minus) := by
  cases k <;> simp [Kind.rule]

theorem opening?_eq_number {k : Kind} : k.rule.opening? = some .number ↔ k = .number := by
  cases k <;> simp [Kind.rule]

theorem opening?_eq_group {k : Kind} : k.rule.opening? = some .group ↔ k = .leftParen := by
  cases k <;> simp [Kind.rule]

theorem opening?_eq_negation {k : Kind} : k.rule.opening? = some .negation ↔ k = .minus := by
  cases k <;> simp [Kind.rule]

theorem precedence_ne_none (op : Operator) : op.precedence ≠ .none := by
  cases op <;> simp [Operator.precedence, Operator.kind, Kind.rule]

theorem joins_kind (op : Operator) : op.kind.rule.joins = true := by
  cases op <;> rfl

theorem rightPrecedence_kind (op : Operator) : op.kind.rightPrecedence = op.rightPrecedence := rfl

theorem exists_operator {k : Kind} (h : k.rule.precedence ≠ .none) : ∃ op : Operator, k = op.kind := by
  cases ho : k.operator? with
  | none => cases k <;> simp_all [Kind.operator?, Kind.rule]
  | some op => exact ⟨op, by cases k <;> cases ho <;> rfl⟩

theorem stops_of_rule {least : Precedence} {ts : List Token} {t : Token} (ht : t ∈ ts.head?)
    (h : t.kind.rule.precedence = .none ∨ ¬least ≤ t.kind.rule.precedence) : Stops least ts := by
  intro t' ht' op hop
  cases Option.mem_unique ht ht'
  rw [hop] at h
  exact h.resolve_left (precedence_ne_none op)

theorem closes_iff {ts : List Token} : Closes ts ↔ ts.head?.any (·.kind = .rightParen) = true := by
  simp [Closes, Option.any_eq_true]

theorem writeSign_minus {t : Token} (h : t.kind = .minus) (p : Parser) :
    writeSign t p = ⟨.ok (), p.write .negate t.line, Nat.le_refl _⟩ := by
  rw [writeSign, h]

theorem writeOperator_kind {t : Token} {op : Operator} (h : t.kind = op.kind) (p : Parser) :
    writeOperator t p = ⟨.ok (), p.write (.operate op) t.line, Nat.le_refl _⟩ := by
  rw [writeOperator, h, Operator.operator?_kind]

end Rules

theorem andThen_error {p : Parser} {reading : Reading p} {f : Failure} (h : reading.result = .error f)
    (next : (q : Parser) → q.rest.length ≤ p.rest.length → Reading q) :
    reading.andThen next = ⟨.error f, reading.parser, reading.forward⟩ := by
  simp [Reading.andThen, h]

theorem andThen_ok {p : Parser} {reading : Reading p} (h : reading.result = .ok ())
    (next : (q : Parser) → q.rest.length ≤ p.rest.length → Reading q) :
    reading.andThen next = (next reading.parser reading.forward).since reading.forward := by
  simp [Reading.andThen, h]

def Describes (limit : Option Nat) (lastLine : Nat) (g : Goal) {p : Parser} (reading : Reading p) : Prop :=
  (∃ e, Reads limit g p e reading.parser ∧ reading.result = .ok ()) ∨
    ∃ f, Fails limit lastLine g p f reading.parser ∧ reading.result = .error f

variable {limit : Option Nat} {lastLine : Nat}

-- The measures are those of the functions: a theorem is used where its function is called.
mutual

theorem expression_runs (least : Precedence) (p : Parser) :
    Describes limit lastLine (.expression least) (expression limit lastLine least p) := by
  rw [expression]
  split
  case isTrue hd => exact .inr ⟨_, .tooDeep hd, rfl⟩
  case isFalse hd =>
    rcases operand_runs p.enter with ⟨l, ho, hr⟩ | ⟨f, ho, hr⟩
    · rw [andThen_ok hr]
      rcases operators_runs least l (operand limit lastLine p.enter).parser with ⟨e, hl, hr⟩ | ⟨f, hl, hr⟩
      · exact .inl ⟨e, .expression hd ho hl, hr⟩
      · exact .inr ⟨f, .operators hd ho hl, hr⟩
    · rw [andThen_error hr]
      exact .inr ⟨f, .operand hd ho, rfl⟩
termination_by 3 * p.rest.length + 2
decreasing_by
  · simp
  · have := (operand limit lastLine p.enter).forward
    rw [Parser.rest_enter] at this
    omega

theorem operand_runs (p : Parser) : Describes limit lastLine .operand (operand limit lastLine p) := by
  rw [operand]
  split
  case h_1 hp => exact .inr ⟨_, .noOperand (by simp [BeginsOperand, hp]), rfl⟩
  case h_2 t hp =>
    have hlt := Parser.skip_length_lt hp
    dsimp only
    split
    case h_1 ho =>
      have := opening?_eq_none.mp ho
      exact .inr ⟨_, .noOperand (by simp_all [BeginsOperand]), rfl⟩
    case h_2 ho =>
      have ht := opening?_eq_number.mp ho
      rw [number]
      split
      case h_1 hx => exact .inr ⟨_, .invalidNumber hp ht hx, rfl⟩
      case h_2 x hx => exact .inl ⟨_, .number hp ht hx, rfl⟩
    case h_3 ho =>
      have ht := opening?_eq_group.mp ho
      rcases expression_runs .unit p.skip with ⟨e, he, hr⟩ | ⟨f, he, hr⟩
      · rw [andThen_ok hr, closeGroup]
        split
        case isTrue hc =>
          obtain ⟨t', hq, ht'⟩ := closes_iff.mpr hc
          exact .inl ⟨_, .group hp ht he hq ht', rfl⟩
        case isFalse hc => exact .inr ⟨_, .unclosed hp ht he (mt closes_iff.mp hc), rfl⟩
      · rw [andThen_error hr]
        exact .inr ⟨f, .inner hp ht he, rfl⟩
    case h_4 ho =>
      have ht := opening?_eq_negation.mp ho
      rcases expression_runs .unary p.skip with ⟨e, he, hr⟩ | ⟨f, he, hr⟩
      · rw [andThen_ok hr, writeSign_minus ht]
        exact .inl ⟨_, .negation hp ht he, rfl⟩
      · rw [andThen_error hr]
        exact .inr ⟨f, .negated hp ht he, rfl⟩
termination_by 3 * p.rest.length + 1
decreasing_by all_goals omega

theorem operators_runs (least : Precedence) (l : Expr) (p : Parser) :
    Describes limit lastLine (.operators least l) (operators limit lastLine least p) := by
  rw [operators]
  split
  case h_1 hp => exact .inl ⟨_, .stop (by simp [Stops, hp]), rfl⟩
  case h_2 t hp =>
    have hlt := Parser.skip_length_lt hp
    dsimp only
    split
    case isTrue h => exact .inl ⟨_, .stop (stops_of_rule hp h), rfl⟩
    case isFalse h =>
      obtain ⟨hk, hl⟩ := not_or.mp h
      have hl := Decidable.not_not.mp hl
      obtain ⟨op, ht⟩ := exists_operator hk
      simp only [ht, joins_kind, ↓reduceIte, rightPrecedence_kind] at hl ⊢
      rcases expression_runs op.rightPrecedence p.skip with ⟨r, he, hr⟩ | ⟨f, he, hr⟩
      · rw [andThen_ok hr, writeOperator_kind ht]
        rcases operators_runs least (.binary op t.mark l r)
            ((expression limit lastLine op.rightPrecedence p.skip).parser.write (.operate op) t.line) with
          ⟨e, hl', hr'⟩ | ⟨f, hl', hr'⟩
        · exact .inl ⟨e, .operator hp ht hl he hl', hr'⟩
        · exact .inr ⟨f, .later hp ht hl he hl', hr'⟩
      · rw [andThen_error hr]
        exact .inr ⟨f, .right hp ht hl he, rfl⟩
termination_by 3 * p.rest.length
decreasing_by
  · omega
  · have := (expression limit lastLine op.rightPrecedence p.skip).forward
    rw [Parser.rest_write]
    omega

end

theorem compileWithin_runs (limit : Option Nat) (ts : List Token) :
    (∃ e q, Reads limit (.expression .unit) { rest := ts } e q ∧
        compileWithin limit ts = .ok (q.chunk.push .halt (lastLineOf ts))) ∨
      ∃ f q, Fails limit (lastLineOf ts) (.expression .unit) { rest := ts } f q ∧
        compileWithin limit ts = .error f := by
  rcases expression_runs .unit { rest := ts } with ⟨e, h, hr⟩ | ⟨f, h, hr⟩
  · exact .inl ⟨e, _, h, by rw [compileWithin, hr]⟩
  · exact .inr ⟨f, _, h, by rw [compileWithin, hr]⟩

theorem compileWithin_of_reads {ts : List Token} {e : Expr} {q : Parser}
    (h : Reads limit (.expression .unit) { rest := ts } e q) :
    compileWithin limit ts = .ok (q.chunk.push .halt (lastLineOf ts)) := by
  rcases compileWithin_runs limit ts with ⟨e', q', h', hc⟩ | ⟨f, q', h', -⟩
  · obtain ⟨rfl, rfl⟩ := h.unique h'
    exact hc
  · exact absurd h h'.not_reads

theorem compileWithin_of_fails {ts : List Token} {f : Failure} {q : Parser}
    (h : Fails limit (lastLineOf ts) (.expression .unit) { rest := ts } f q) :
    compileWithin limit ts = .error f := by
  rcases compileWithin_runs limit ts with ⟨e, q', h', -⟩ | ⟨f', q', h', hc⟩
  · exact absurd h' h.not_reads
  · obtain ⟨rfl, rfl⟩ := h.unique h'
    exact hc

end StackCalc.Compiler
