import StackCalc.Proofs.Parsing.Language
import StackCalc.Proofs.Scanning.Parentheses

namespace StackCalc

def Token.spelling (t : Token) : Kind × String := (t.kind, t.lexeme)

def SpelledAlike (ts ts' : List Token) : Prop := ts.map Token.spelling = ts'.map Token.spelling

namespace SpelledAlike

variable {t : Token} {ts ts' xs ys : List Token}

theorem symm (h : SpelledAlike ts ts') : SpelledAlike ts' ts := Eq.symm h

theorem exists_cons (h : SpelledAlike (t :: ts) ts') :
    ∃ t' ts'', ts' = t' :: ts'' ∧ t'.kind = t.kind ∧ t'.lexeme = t.lexeme ∧ SpelledAlike ts ts'' := by
  obtain ⟨t', ts'', rfl, ht, hts⟩ := List.map_eq_cons_iff.mp (Eq.symm h)
  exact ⟨t', ts'', rfl, congrArg Prod.fst ht, congrArg Prod.snd ht, Eq.symm hts⟩

theorem exists_append (h : SpelledAlike (xs ++ ys) ts) :
    ∃ xs' ys', ts = xs' ++ ys' ∧ SpelledAlike xs xs' ∧ SpelledAlike ys ys' := by
  rw [SpelledAlike, List.map_append] at h
  obtain ⟨xs', ys', rfl, hxs, hys⟩ := List.map_eq_append_iff.mp (Eq.symm h)
  exact ⟨xs', ys', rfl, Eq.symm hxs, Eq.symm hys⟩

end SpelledAlike

theorem spelledAlike_of_moved {found found' : List Lexeme} {line line' : List Char → Nat}
    (h : found'.map Lexeme.spelling = found.map Lexeme.spelling) :
    SpelledAlike (found.map (·.token line)) (found'.map (·.token line')) := by
  have hspelling (found : List Lexeme) (line : List Char → Nat) :
      (found.map (·.token line)).map Token.spelling =
        (found.map Lexeme.spelling).map (Prod.map id String.ofList) := by
    simp [Function.comp_def, Token.spelling, Lexeme.token, Lexeme.spelling]
  rw [SpelledAlike, hspelling, hspelling, h]

variable {limit : Option Nat} {ts ts' : List Token} {e : Expr}

theorem Expr.exists_respelled (e : Expr) (h : SpelledAlike e.tokens ts) : ∃ e' : Expr, e'.tokens = ts ∧
    e'.value = e.value ∧ e'.need = e.need ∧ ∀ s, e.Derives s → e'.Derives s := by
  induction e generalizing ts with
  | number m x =>
    obtain ⟨t, ts, rfl, hk, hlexeme, hts⟩ := h.exists_cons
    obtain rfl : ts = [] := List.map_eq_nil_iff.mp (Eq.symm hts)
    refine ⟨.number t.mark x, by rw [tokens, Token.mark_token (k := .number) hk], rfl, rfl, ?_⟩
    intro s hs
    have hlexeme : t.mark.lexeme = m.lexeme := hlexeme
    apply derives_number_iff.mpr
    rw [hlexeme, derives_number_iff.mp hs]
  | group opening e closing ih =>
    obtain ⟨t, ts, rfl, hk, -, hts⟩ := h.exists_cons
    obtain ⟨xs, ys, rfl, hxs, hys⟩ := hts.exists_append
    obtain ⟨t', ys, rfl, hk', -, hys⟩ := hys.exists_cons
    obtain rfl : ys = [] := List.map_eq_nil_iff.mp (Eq.symm hys)
    obtain ⟨e', rfl, hvalue, hneed, hderives⟩ := ih hxs
    refine ⟨.group t.mark e' t'.mark, ?_, hvalue, by rw [need, need, hneed], ?_⟩
    · rw [tokens, Token.mark_token (k := .leftParen) hk, Token.mark_token (k := .rightParen) hk']
    · exact fun s hs => derives_group_iff.mpr (hderives _ (derives_group_iff.mp hs))
  | negation m e ih =>
    obtain ⟨t, ts, rfl, hk, -, hts⟩ := h.exists_cons
    obtain ⟨e', rfl, hvalue, hneed, hderives⟩ := ih hts
    refine ⟨.negation t.mark e', ?_, by rw [value, value, hvalue], by rw [need, need, hneed], ?_⟩
    · rw [tokens, Token.mark_token (k := .minus) hk]
    · exact fun s hs => derives_negation_iff.mpr (hderives _ (derives_negation_iff.mp hs))
  | binary op m l r ihl ihr =>
    obtain ⟨xs, ys, rfl, hxs, hys⟩ := h.exists_append
    obtain ⟨t, ys, rfl, hk, -, hys⟩ := hys.exists_cons
    obtain ⟨l', rfl, hvalue, hneed, hl⟩ := ihl hxs
    obtain ⟨r', rfl, hvalue', hneed', hr⟩ := ihr hys
    refine ⟨.binary op t.mark l' r', ?_, by rw [value, value, hvalue, hvalue'],
      by rw [need, need, hneed, hneed'], ?_⟩
    · rw [tokens, Token.mark_token (k := op.kind) hk]
    · intro s hs
      obtain ⟨hop, hleft, hright⟩ := derives_binary_iff.mp hs
      exact derives_binary_iff.mpr ⟨hop, hl _ hleft, hr _ hright⟩

theorem Expr.Heads.exists_respelled (h : e.Heads limit ts) (hts : SpelledAlike ts ts') :
    ∃ e' : Expr, e'.Heads limit ts' ∧ e'.value = e.value := by
  obtain ⟨hderives, hneed, rest, rfl, hrest⟩ := h
  obtain ⟨xs, rest', rfl, hxs, hrest'⟩ := hts.exists_append
  obtain ⟨e', rfl, hvalue, hneed', hderives'⟩ := e.exists_respelled hxs
  refine ⟨e', ⟨hderives' _ hderives, by rwa [hneed'], rest', rfl, ?_⟩, hvalue⟩
  intro t ht op hop
  obtain ⟨ts, rfl⟩ := List.head?_eq_some_iff.mp ht
  obtain ⟨t', ts', rfl, hk, -⟩ := hrest'.symm.exists_cons
  exact hrest t' rfl op (hk.trans hop)

end StackCalc
