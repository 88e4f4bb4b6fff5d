import StackCalc.Proofs.Parsing.Calls

namespace StackCalc.Compiler

def chain (first : Token) (links : List (Token × Token)) : List Token :=
  first :: links.flatMap fun (operator, number) => [operator, number]

def IsNumber (t : Token) : Prop := t.kind = .number ∧ ∃ x, Numeral.read? t.lexeme = some x

def JoinsLeft (level : Precedence) (t : Token) : Prop :=
  ∃ op : Operator, t.kind = op.kind ∧ op.precedence = level ∧ op.kind.groupsRight = false

variable {first : Token} {links : List (Token × Token)} {level : Precedence} {l : Expr}

theorem IsNumber.exists_expr (h : IsNumber first) :
    ∃ e : Expr, e.Derives .operand ∧ e.tokens = [first] ∧ e.need = 1 := by
  obtain ⟨hk, x, hx⟩ := h
  exact ⟨.number first.mark x, .number hx, by rw [Expr.tokens, Token.mark_token hk], rfl⟩

theorem exists_left_chain (hl : l.Derives level.phrase) (hn : l.need ≤ 2)
    (h : ∀ link ∈ links, JoinsLeft level link.1 ∧ IsNumber link.2) :
    ∃ e : Expr, e.Derives level.phrase ∧ e.need ≤ 2 ∧
      e.tokens = l.tokens ++ links.flatMap fun (operator, number) => [operator, number] := by
  induction links generalizing l with
  | nil => exact ⟨l, hl, hn, by simp⟩
  | cons link links ih =>
    obtain ⟨⟨op, hop, rfl, hleft⟩, hnumber⟩ := h link (List.mem_cons_self ..)
    obtain ⟨r, hr, htokens, hneed⟩ := hnumber.exists_expr
    have hphrase : op.leftPhrase = op.precedence.phrase := by simp [Operator.leftPhrase, hleft]
    have hbinary : (Expr.binary op link.1.mark l r).Derives op.precedence.phrase :=
      .binary (by rwa [hphrase]) (hr.loosen (Phrase.precedence_le_operand _))
    have hbinaryNeed : (Expr.binary op link.1.mark l r).need ≤ 2 := by
      simp only [Expr.need, hneed]
      omega
    obtain ⟨e, he, hneed, hchain⟩ := ih hbinary hbinaryNeed fun link hlink => h link (List.mem_cons_of_mem _ hlink)
    refine ⟨e, he, hneed, ?_⟩
    rw [hchain, Expr.tokens, Token.mark_token hop, htokens]
    simp

theorem exists_right_chain (hfirst : IsNumber first)
    (h : ∀ link ∈ links, link.1.kind = Operator.exponentiate.kind ∧ IsNumber link.2) :
    ∃ e : Expr, e.Derives .power ∧ e.tokens = chain first links ∧ e.need = links.length + 1 := by
  induction links generalizing first with
  | nil =>
    obtain ⟨e, he, htokens, hneed⟩ := hfirst.exists_expr
    exact ⟨e, .operand he, htokens, hneed⟩
  | cons link links ih =>
    obtain ⟨hop, hnumber⟩ := h link (List.mem_cons_self ..)
    obtain ⟨l, hl, htokens, hneed⟩ := hfirst.exists_expr
    obtain ⟨r, hr, hchain, hlength⟩ := ih hnumber fun link hlink => h link (List.mem_cons_of_mem _ hlink)
    refine ⟨.binary .exponentiate link.1.mark l r, .power hl hr, ?_, ?_⟩
    · rw [Expr.tokens, htokens, Token.mark_token hop, hchain]
      rfl
    · simp only [Expr.need, hneed, hlength, List.length_cons]
      omega

theorem heads_of_tokens {e : Expr} {ts : List Token} (he : e.Derives .sum) (ht : e.tokens = ts) :
    e.Heads none ts where
  derives := he
  need_le := by simp
  tokens_append := ⟨[], by simp [ht], by simp⟩

theorem nesting_left_chain (hfirst : IsNumber first)
    (h : ∀ link ∈ links, JoinsLeft level link.1 ∧ IsNumber link.2) : nesting (chain first links) ≤ 2 := by
  obtain ⟨l, hl, htokens, hneed⟩ := hfirst.exists_expr
  have hlevel : l.Derives level.phrase := hl.loosen (Phrase.precedence_le_operand level.phrase)
  obtain ⟨e, he, hneed, hchain⟩ := exists_left_chain hlevel (by rw [hneed]; decide) h
  have hsum : e.Derives .sum := he.loosen (by cases level <;> decide)
  rw [nesting_eq_need (heads_of_tokens hsum (by rw [hchain, htokens]; rfl))]
  exact hneed

theorem nesting_right_chain (hfirst : IsNumber first)
    (h : ∀ link ∈ links, link.1.kind = Operator.exponentiate.kind ∧ IsNumber link.2) :
    nesting (chain first links) = links.length + 1 := by
  obtain ⟨e, he, hchain, hneed⟩ := exists_right_chain hfirst h
  have hsum : e.Derives .sum := he.loosen (by decide)
  rw [nesting_eq_need (heads_of_tokens hsum hchain), hneed]

end StackCalc.Compiler
