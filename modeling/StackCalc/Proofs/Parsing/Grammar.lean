import StackCalc.Proofs.Parsing.Readings
import StackCalc.Proofs.Parsing.Trees

/-!
# The parser and the grammar

The trees that the parser reads are those that the grammar derives. Both the precedence that the
parser is asked for and the phrase of the grammar say where a tree may end; `Phrase.precedence` and
`Precedence.phrase` go from one to the other.
-/

namespace StackCalc

def Precedence.phrase : Precedence → Phrase
  | none | unit | term => .sum
  | factor => .product
  | exponentiation => .power
  | unary => .operand

namespace Phrase

def precedence : Phrase → Precedence
  | sum => .term
  | product => .factor
  | power => .exponentiation
  | operand => .unary

/-- An operator that binds this tightly would take the end of a phrase along. -/
def follow : Phrase → Precedence
  | sum => .factor
  | product | power => .exponentiation
  | operand => .unary

end Phrase

namespace Operator

def leftPhrase (op : Operator) : Phrase :=
  if op.kind.groupsRight then op.precedence.next.phrase else op.precedence.phrase

theorem leftPhrase_precedence_le {op op' : Operator} (h : ¬op.rightPrecedence ≤ op'.precedence) :
    op'.leftPhrase.precedence ≤ op.precedence.phrase.precedence := by
  cases op <;> cases op' <;> first | decide | exact absurd (by decide) h

theorem le_leftPhrase_precedence (op : Operator) :
    op.precedence.phrase.precedence ≤ op.leftPhrase.precedence := by
  cases op <;> decide

theorem not_leftPhrase_follow_le (op : Operator) : ¬op.leftPhrase.follow ≤ op.precedence := by
  cases op <;> decide

theorem precedence_phrase (op : Operator) : op.precedence.phrase.precedence = op.precedence := by
  cases op <;> rfl

theorem rightPrecedence_phrase (op : Operator) :
    op.rightPrecedence.phrase.precedence = op.rightPrecedence := by
  cases op <;> rfl

theorem phrase_follow (op : Operator) : op.precedence.phrase.follow = op.rightPrecedence := by
  cases op <;> rfl

end Operator

theorem Precedence.le_trans {p q r : Precedence} (h : p ≤ q) (h' : q ≤ r) : p ≤ r := Nat.le_trans h h'

theorem Precedence.phrase_mono {p q : Precedence} (h : p ≤ q) :
    p.phrase.precedence ≤ q.phrase.precedence := by
  cases p <;> cases q <;> first | decide | exact absurd h (by decide)

theorem Phrase.precedence_le_follow (s : Phrase) : s.precedence ≤ s.follow := by
  cases s <;> decide

theorem Phrase.follow_mono {s s' : Phrase} (h : s'.precedence ≤ s.precedence) : s'.follow ≤ s.follow := by
  cases s <;> cases s' <;> first | decide | exact absurd h (by decide)

theorem Phrase.precedence_le_operand (s : Phrase) : s.precedence ≤ operand.precedence := by
  cases s <;> decide

namespace Expr

variable {e l r : Expr}

theorem need_pos (e : Expr) : 1 ≤ e.need := by
  induction e with
  | number => exact Nat.le_refl 1
  | group _ e _ => exact Nat.le_add_right 1 e.need
  | negation _ e => exact Nat.le_add_right 1 e.need
  | binary _ _ l r ihl _ => exact Nat.le_trans ihl (Nat.le_max_left l.need _)

theorem Derives.loosen {s s' : Phrase} (h : Derives s e) (hs : s'.precedence ≤ s.precedence) :
    Derives s' e := by
  have power (h : Derives .operand e) : Derives .power e := .operand h
  have product (h : Derives .power e) : Derives .product e := .factor h
  have sum (h : Derives .product e) : Derives .sum e := .term h
  cases s' with
  | operand =>
    cases s with
    | operand => exact h
    | _ => exact absurd hs (by decide)
  | power =>
    cases s with
    | operand => exact power h
    | power => exact h
    | _ => exact absurd hs (by decide)
  | product =>
    cases s with
    | operand => exact product (power h)
    | power => exact product h
    | product => exact h
    | sum => exact absurd hs (by decide)
  | sum =>
    cases s with
    | operand => exact sum (product (power h))
    | power => exact sum (product h)
    | product => exact sum h
    | sum => exact h

theorem Derives.binary {op : Operator} {m : Mark} (hl : Derives op.leftPhrase l)
    (hr : Derives op.rightPrecedence.phrase r) : Derives op.precedence.phrase (.binary op m l r) := by
  cases op with
  | sum => exact .sum (.inl rfl) hl hr
  | subtract => exact .sum (.inr rfl) hl hr
  | multiply => exact .product (.inl rfl) hl hr
  | divide => exact .product (.inr (.inl rfl)) hl hr
  | modulo => exact .product (.inr (.inr rfl)) hl hr
  | exponentiate => exact .power hl hr

theorem Derives.operand_of_ne_binary {s : Phrase} (h : Derives s e) (he : ∀ op m l r, e ≠ .binary op m l r) :
    Derives .operand e := by
  induction h with
  | number h => exact .number h
  | group h => exact .group h
  | negation h => exact .negation h
  | operand _ ih => exact ih he
  | factor _ ih => exact ih he
  | term _ ih => exact ih he
  | power => exact absurd rfl (he _ _ _ _)
  | product => exact absurd rfl (he _ _ _ _)
  | sum => exact absurd rfl (he _ _ _ _)

theorem derives_number_iff {s : Phrase} {m : Mark} {x : Cell} :
    Derives s (.number m x) ↔ Numeral.read? m.lexeme = some x := by
  constructor
  · intro h
    cases h.operand_of_ne_binary (by nofun) with
    | number h => exact h
  · exact fun h => (Derives.number h).loosen s.precedence_le_operand

theorem derives_group_iff {s : Phrase} {opening closing : Mark} :
    Derives s (.group opening e closing) ↔ Derives .sum e := by
  constructor
  · intro h
    cases h.operand_of_ne_binary (by nofun) with
    | group h => exact h
  · exact fun h => (Derives.group h).loosen s.precedence_le_operand

theorem derives_negation_iff {s : Phrase} {m : Mark} : Derives s (.negation m e) ↔ Derives .operand e := by
  constructor
  · intro h
    cases h.operand_of_ne_binary (by nofun) with
    | negation h => exact h
  · exact fun h => (Derives.negation h).loosen s.precedence_le_operand

theorem derives_binary_iff {s : Phrase} {op : Operator} {m : Mark} :
    Derives s (.binary op m l r) ↔ s.precedence ≤ op.precedence.phrase.precedence ∧
      Derives op.leftPhrase l ∧ Derives op.rightPrecedence.phrase r := by
  constructor
  · intro h
    generalize hb : Expr.binary op m l r = b at h
    induction h with
    | power hl hr =>
      cases hb
      exact ⟨by decide, hl, hr⟩
    | product hop hl hr =>
      cases hb
      rcases hop with rfl | rfl | rfl <;> exact ⟨by decide, hl, hr⟩
    | sum hop hl hr =>
      cases hb
      rcases hop with rfl | rfl <;> exact ⟨by decide, hl, hr⟩
    | operand h => cases h <;> cases hb
    | factor _ ih => exact ⟨Precedence.le_trans (by decide) (ih hb).1, (ih hb).2⟩
    | term _ ih => exact ⟨Precedence.le_trans (by decide) (ih hb).1, (ih hb).2⟩
    | _ => cases hb
  · rintro ⟨hs, hl, hr⟩
    exact (Derives.binary hl hr).loosen hs

end Expr

namespace Compiler

variable {limit : Option Nat}

section Soundness

def Takes (l : Expr) (ts : List Token) : Prop :=
  ∀ t ∈ ts.head?, ∀ op : Operator, t.kind = op.kind → l.Derives op.leftPhrase

def Goal.Derived : Goal → List Token → Expr → List Token → Prop
  | .expression least, _, e, ts => e.Derives least.phrase ∧ Stops least ts
  | .operand, _, e, _ => e.Derives .operand
  | .operators least l, ts, e, ts' =>
    l.Derives least.phrase → Takes l ts → e.Derives least.phrase ∧ Stops least ts'

theorem Reads.derived {g : Goal} {p q : Parser} {e : Expr} (h : Reads limit g p e q) :
    g.Derived p.rest e q.rest := by
  induction h with
  | expression _ _ _ iho ihl =>
    apply ihl
    · exact iho.loosen (Phrase.precedence_le_operand _)
    · exact fun _ _ op _ => iho.loosen (Phrase.precedence_le_operand op.leftPhrase)
  | number _ _ hx => exact .number hx
  | group _ _ _ _ _ ih => exact .group ih.1
  | negation _ _ _ ih => exact .negation ih.1
  | stop hs => exact fun hl _ => ⟨hl, hs⟩
  | @operator least l p t op r q e q' hp ht hle _ _ ihr ih =>
    intro _ htakes
    have hbinary : (Expr.binary op t.mark l r).Derives op.precedence.phrase :=
      .binary (htakes t hp op ht) ihr.1
    apply ih
    · exact hbinary.loosen (Precedence.phrase_mono hle)
    · intro t' ht' op' hop'
      exact hbinary.loosen (Operator.leftPhrase_precedence_le (ihr.2 t' ht' op' hop'))

end Soundness

section Completeness

variable {least least' : Precedence} {ts : List Token}

theorem Stops.mono (h : Stops least ts) (hl : least ≤ least') : Stops least' ts :=
  fun t ht op hop hle => h t ht op hop (Precedence.le_trans hl hle)

theorem stops_cons {t : Token} {op : Operator} (ht : t.kind = op.kind) (h : ¬least ≤ op.precedence) :
    Stops least (t :: ts) := by
  intro t' ht' op' hop'
  cases ht'
  rwa [← Operator.kind_injective (ht.symm.trans hop')]

theorem stops_cons_rightParen {t : Token} (ht : t.kind = .rightParen) : Stops least (t :: ts) := by
  intro t' ht' op hop
  cases ht'
  rw [ht] at hop
  cases op <;> cases hop

/-- A parser in front of the tokens of `e` reads an operand and then operators, and has read `e` in
between. The tree that it has read in the end can be larger, so the rest of its run is given. -/
def Readable (limit : Option Nat) (s : Phrase) (e : Expr) : Prop :=
  ∀ (least : Precedence) (rest : List Token) (d : Nat) (c : Chunk) (e' : Expr) (q : Parser),
    least ≤ s.precedence → Stops s.follow rest → (∀ n ∈ limit, d + e.need ≤ n + 1) →
      Reads limit (.operators least e) ⟨rest, d, c.extend e.cells⟩ e' q →
        ∃ l q', Reads limit .operand ⟨e.tokens ++ rest, d, c⟩ l q' ∧ Reads limit (.operators least l) q' e' q

namespace Readable

variable {s s' : Phrase} {e l r : Expr}

theorem of_operand (h : ∀ (rest : List Token) (d : Nat) (c : Chunk), (∀ n ∈ limit, d + e.need ≤ n + 1) →
    Stops .unary rest → Reads limit .operand ⟨e.tokens ++ rest, d, c⟩ e ⟨rest, d, c.extend e.cells⟩) :
    Readable limit .operand e := by
  intro least rest d c e' q _ hs hn hq
  exact ⟨e, _, h rest d c hn hs, hq⟩

theorem loosen (h : Readable limit s e) (hs : s'.precedence ≤ s.precedence) : Readable limit s' e := by
  intro least rest d c e' q hl hstops hn hq
  exact h least rest d c e' q (Precedence.le_trans hl hs) (hstops.mono (Phrase.follow_mono hs)) hn hq

theorem expression (h : Readable limit s e) {rest : List Token} {d : Nat} {c : Chunk}
    (hl : least ≤ s.precedence) (hs : Stops least rest) (hn : ∀ n ∈ limit, d + e.need ≤ n) :
    Reads limit (.expression least) ⟨e.tokens ++ rest, d, c⟩ e ⟨rest, d, c.extend e.cells⟩ := by
  have hd : ¬limit.any (· ≤ d) := by
    intro hd
    obtain ⟨n, hmem, hle⟩ := (Option.any_eq_true _ _).mp hd
    have hle : n ≤ d := of_decide_eq_true hle
    have := hn n hmem
    have := e.need_pos
    omega
  have hf := hs.mono (Precedence.le_trans hl s.precedence_le_follow)
  obtain ⟨l, q', ho, hq⟩ := h least rest (d + 1) c e ⟨rest, d + 1, c.extend e.cells⟩ hl hf
    (fun n hmem => by have := hn n hmem; omega) (.stop hs)
  exact .expression hd ho hq

theorem number {m : Mark} {x : Cell} (hx : Numeral.read? m.lexeme = some x) :
    Readable limit .operand (.number m x) := by
  apply of_operand
  intro rest d c _ _
  rw [Expr.cells, Chunk.extend_pair]
  exact .number (t := m.token .number) (p := ⟨m.token .number :: rest, d, c⟩) rfl rfl hx

theorem group {opening closing : Mark} (h : Readable limit .sum e) :
    Readable limit .operand (.group opening e closing) := by
  apply of_operand
  intro rest d c hn _
  have he : Reads limit (.expression .unit) ⟨e.tokens ++ closing.token .rightParen :: rest, d, c⟩ e
      ⟨closing.token .rightParen :: rest, d, c.extend e.cells⟩ := by
    apply h.expression (by decide) (stops_cons_rightParen rfl)
    intro n hmem
    have := hn n hmem
    simp only [Expr.need] at this
    omega
  have htokens : (Expr.group opening e closing).tokens ++ rest =
      opening.token .leftParen :: (e.tokens ++ closing.token .rightParen :: rest) := by
    simp [Expr.tokens]
  rw [htokens]
  exact .group (p := ⟨opening.token .leftParen :: (e.tokens ++ closing.token .rightParen :: rest), d, c⟩)
    (t := opening.token .leftParen) rfl rfl he rfl rfl

theorem negation {m : Mark} (h : Readable limit .operand e) : Readable limit .operand (.negation m e) := by
  apply of_operand
  intro rest d c hn hs
  have he : Reads limit (.expression .unary) ⟨e.tokens ++ rest, d, c⟩ e ⟨rest, d, c.extend e.cells⟩ := by
    apply h.expression (by decide) hs
    intro n hmem
    have := hn n hmem
    simp only [Expr.need] at this
    omega
  rw [Expr.cells, Chunk.extend_append, Chunk.extend_singleton]
  exact .negation (p := ⟨m.token .minus :: (e.tokens ++ rest), d, c⟩) (t := m.token .minus) rfl rfl he

theorem binary {m : Mark} (op : Operator) (hleft : Readable limit op.leftPhrase l)
    (hright : Readable limit op.rightPrecedence.phrase r) :
    Readable limit op.precedence.phrase (.binary op m l r) := by
  intro least rest d c e' q hl hs hn hq
  simp only [Expr.need] at hn
  rw [Operator.phrase_follow] at hs
  have hr : Reads limit (.expression op.rightPrecedence) ⟨r.tokens ++ rest, d, c.extend l.cells⟩ r
      ⟨rest, d, (c.extend l.cells).extend r.cells⟩ := by
    apply hright.expression
    · rw [Operator.rightPrecedence_phrase]
      exact Nat.le_refl _
    · exact hs
    · intro n hmem
      have := hn n hmem
      omega
  have hoperators : Reads limit (.operators least l)
      ⟨m.token op.kind :: (r.tokens ++ rest), d, c.extend l.cells⟩ e' q := by
    rw [Expr.cells, Chunk.extend_append, Chunk.extend_append, Chunk.extend_singleton] at hq
    rw [Operator.precedence_phrase] at hl
    exact .operator (t := m.token op.kind) rfl rfl hl hr hq
  have hleft := hleft least (m.token op.kind :: (r.tokens ++ rest)) d c e' q
    (Precedence.le_trans hl op.le_leftPhrase_precedence) (stops_cons rfl op.not_leftPhrase_follow_le)
    (fun n hmem => by have := hn n hmem; omega) hoperators
  simpa [Expr.tokens] using hleft

end Readable

theorem readable_of_derives {s : Phrase} {e : Expr} (h : e.Derives s) : Readable limit s e := by
  induction h with
  | number hx => exact .number hx
  | group _ ih => exact ih.group
  | negation _ ih => exact ih.negation
  | operand _ ih => exact ih.loosen (by decide)
  | power _ _ ihl ihr => exact .binary .exponentiate ihl ihr
  | factor _ ih => exact ih.loosen (by decide)
  | @product op _ _ _ hop _ _ ihl ihr =>
    rcases hop with rfl | rfl | rfl
    · exact .binary .multiply ihl ihr
    · exact .binary .divide ihl ihr
    · exact .binary .modulo ihl ihr
  | term _ ih => exact ih.loosen (by decide)
  | @sum op _ _ _ hop _ _ ihl ihr =>
    rcases hop with rfl | rfl
    · exact .binary .sum ihl ihr
    · exact .binary .subtract ihl ihr

end Completeness

end Compiler

end StackCalc
