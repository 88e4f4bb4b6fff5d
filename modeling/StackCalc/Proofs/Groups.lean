import Mathlib.Control.Monad.Basic
import StackCalc.Proofs.Parsing.Contexts
import StackCalc.Proofs.Parsing.Remainder
import StackCalc.Proofs.Parsing.Spelling
import StackCalc.Proofs.Readback
import StackCalc.Proofs.Scanning.Parentheses

/-!
# Groups and their values

What is inside a pair of parentheses can be replaced by the text of its value, whatever stands around
the group.
-/

namespace StackCalc

section Trees

variable {e : Expr} {before cs : List Char}

theorem Expr.Spans.two_le_need (h : e.Spans before cs) (hsign : e.value.isNegative = true) : 2 ≤ e.need := by
  obtain ⟨hderives, found, hs, htokens⟩ := h
  cases e with
  | number m x =>
    have hmem : m.token .number ∈ found.map (·.token lineAfter) := htokens ▸ List.mem_singleton.mpr rfl
    obtain ⟨l, hl, htoken⟩ := List.mem_map.mp hmem
    obtain ⟨-, -, hm⟩ := hs.kind_of_mem hl
    have hkind : l.kind = .number := congrArg Token.kind htoken
    have hlexeme : .ofList l.text = m.lexeme := congrArg Token.lexeme htoken
    rw [hkind] at hm
    have hread : Numeral.read? (.ofList l.text) = some x := by
      rw [hlexeme]
      exact derives_number_iff.mp hderives
    have hpositive : x.isNegative = false := Numeral.isNegative_of_read? hm hread
    cases hsign.symm.trans hpositive
  | group _ e _ => exact Nat.add_le_add_left e.need_pos 1
  | negation _ e => exact Nat.add_le_add_left e.need_pos 1
  | binary _ _ l r => exact Nat.le_trans (Nat.add_le_add_left r.need_pos 1) (Nat.le_max_right l.need _)

end Trees

section Texts

variable {a e e' b cs : List Char} {found found' left inner inner' right : List Lexeme}
  {line line' : List Char → Nat}

def parenthesized (a e : List Char) (left inner right : List Lexeme) : List Lexeme :=
  left ++ ⟨.leftParen, ['('], a⟩ :: (inner ++ ⟨.rightParen, [')'], a ++ ['('] ++ e⟩ :: right)

theorem splits_parenthesized_iff : Splits [] (a ++ '(' :: (e ++ ')' :: b)) found [] ↔
    ∃ left inner right, found = parenthesized a e left inner right ∧ Splits [] a left [] ∧
      Splits (a ++ ['(']) e inner [] ∧ Splits (a ++ ['('] ++ e ++ [')']) b right [] := by
  have hopening : Kind.Parenthesis .leftParen '(' := .inl ⟨rfl, rfl⟩
  have hclosing : Kind.Parenthesis .rightParen ')' := .inr ⟨rfl, rfl⟩
  rw [Splits.parenthesis_iff hopening]
  simp only [List.nil_append, Splits.parenthesis_iff hclosing]
  constructor
  · rintro ⟨left, _, rfl, hleft, inner, right, rfl, hinner, hright⟩
    exact ⟨left, inner, right, rfl, hleft, hinner, hright⟩
  · rintro ⟨left, inner, right, rfl, hleft, hinner, hright⟩
    exact ⟨left, _, rfl, hleft, inner, right, rfl, hinner, hright⟩

theorem map_token_parenthesized : (parenthesized a e left inner right).map (·.token line) =
    left.map (·.token line) ++ Lexeme.token line ⟨.leftParen, ['('], a⟩ :: (inner.map (·.token line) ++
      Lexeme.token line ⟨.rightParen, [')'], a ++ ['('] ++ e⟩ :: right.map (·.token line)) := by
  simp [parenthesized]

theorem map_spelling_parenthesized {right' : List Lexeme}
    (h : right'.map Lexeme.spelling = right.map Lexeme.spelling) :
    (parenthesized a e' left inner right').map Lexeme.spelling =
      (parenthesized a e left inner right).map Lexeme.spelling := by
  simp [parenthesized, Lexeme.spelling, h]

theorem spelledAlike_of_splits {before before' : List Char} (h : Splits before cs found [])
    (h' : Splits before' cs found' []) :
    SpelledAlike (found.map (·.token line)) (found'.map (·.token line')) := by
  obtain ⟨moved, hmoved, hspelling⟩ := h.exists_moved before'
  rw [hmoved.unique h'] at hspelling
  exact spelledAlike_of_moved hspelling

end Texts

theorem exists_spans_of_unread {source : String} {ts : List Token} {v : Cell} (ht : tokenize source = .ok ts)
    (hall : Compiler.unread ts = []) (hv : evaluate source = .ok v) :
    ∃ e : Expr, e.Spans [] source.toList ∧ e.value = v := by
  obtain ⟨_, e, ht', he, rfl⟩ := evaluate_eq_ok_iff.mp hv
  cases ht.symm.trans ht'
  obtain ⟨found, hs, rfl⟩ := exists_splits_of_tokenize ht
  have htokens := Compiler.tokens_append_unread he
  rw [hall, List.append_nil] at htokens
  exact ⟨e, ⟨he.derives, found, hs, htokens.symm⟩, rfl⟩

theorem evaluate_replace_group {a b s s' : String} {e e' : Expr} {x : Cell} (he : e.Spans [] s.toList)
    (he' : e'.Spans (a.toList ++ ['(']) s'.toList) (hvalue : e'.value = e.value) (hneed : e'.need ≤ e.need)
    (hx : evaluate (a ++ "(" ++ s ++ ")" ++ b) = .ok x) : evaluate (a ++ "(" ++ s' ++ ")" ++ b) = .ok x := by
  have htext (s : String) : a ++ "(" ++ s ++ ")" ++ b =
      .ofList (a.toList ++ '(' :: (s.toList ++ ')' :: b.toList)) := by
    apply String.toList_inj.mp
    simp
  obtain ⟨hderives, inner, hs, htokens⟩ := he
  obtain ⟨hderives', inner', hs', htokens'⟩ := he'
  rw [htext] at hx ⊢
  obtain ⟨_, t, ht, hheads, rfl⟩ := evaluate_eq_ok_iff.mp hx
  obtain ⟨found, hfound, rfl⟩ := exists_splits_of_tokenize ht
  rw [String.toList_ofList] at hfound
  obtain ⟨left, inside, right, rfl, hleft, hinside, hright⟩ := splits_parenthesized_iff.mp hfound
  -- Behind the opening parenthesis the tree of `s` is on other lines than by itself.
  have hinner : SpelledAlike e.tokens (inside.map (·.token lineAfter)) := by
    rw [htokens]
    exact spelledAlike_of_splits hs hinside
  obtain ⟨g, hg, hgvalue, hgneed, hgderives⟩ := e.exists_respelled hinner
  obtain ⟨t₁, hheads₁, hvalue₁⟩ : ∃ t₁ : Expr, t₁.Heads (some Compiler.maxDepth)
      ((parenthesized a.toList s.toList left inner' right).map (·.token lineAfter)) ∧ t₁.value = t.value := by
    rw [map_token_parenthesized, ← hg] at hheads
    rw [map_token_parenthesized, ← htokens']
    exact hheads.replace_group rfl rfl (hgderives _ hderives) hderives' (by rw [hvalue, hgvalue]) (by rwa [hgneed])
  -- What follows the closing parenthesis has moved.
  obtain ⟨right', hright', hmoved⟩ := hright.exists_moved (a.toList ++ ['('] ++ s'.toList ++ [')'])
  obtain ⟨t₂, hheads₂, hvalue₂⟩ :=
    hheads₁.exists_respelled (spelledAlike_of_moved (map_spelling_parenthesized hmoved))
  have hsplits := splits_parenthesized_iff.mpr ⟨left, inner', right', rfl, hleft, hs', hright'⟩
  exact evaluate_eq_ok_iff.mpr ⟨_, t₂, tokenize_of_splits hsplits, hheads₂, hvalue₂.trans hvalue₁⟩

theorem evaluate_group_display {a b e : String} {ts : List Token} {v x : Cell}
    (ht : tokenize e = .ok ts) (hall : Compiler.unread ts = []) (hv : evaluate e = .ok v)
    (hfinite : v.isFinite = true) (hx : evaluate (a ++ "(" ++ e ++ ")" ++ b) = .ok x) :
    evaluate (a ++ "(" ++ v.display ++ ")" ++ b) = .ok x := by
  obtain ⟨w, hw, rfl⟩ := exists_spans_of_unread ht hall hv
  obtain ⟨w', hw', hvalue, hneed⟩ := exists_spans_display hfinite (a.toList ++ ['('])
  apply evaluate_replace_group hw hw' hvalue ?_ hx
  rw [hneed]
  split
  case isTrue hsign => exact hw.two_le_need hsign
  case isFalse => exact w.need_pos

theorem evaluate_group_display_negative : let v : Cell := ⟨0xc010000000000000⟩
    ∃ ts, tokenize "-(-(-4))" = .ok ts ∧ Compiler.unread ts = [] ∧ evaluate "-(-(-4))" = .ok v ∧
      v.isFinite = true ∧ evaluate "-(-(-(-4))) 5" = .ok (-v) ∧ v.display = "-4" ∧
        evaluate "-(-4) 5" = .ok (-v) := by
  intro v
  let ts : List Token := [⟨.minus, "-", 1⟩, ⟨.leftParen, "(", 1⟩, ⟨.minus, "-", 1⟩, ⟨.leftParen, "(", 1⟩,
    ⟨.minus, "-", 1⟩, ⟨.number, "4", 1⟩, ⟨.rightParen, ")", 1⟩, ⟨.rightParen, ")", 1⟩]
  have ht : tokenize "-(-(-4))" = .ok ts := by decide +kernel
  have hall : Compiler.unread ts = [] := by decide +kernel
  have hv : evaluate "-(-(-4))" = .ok v := by decide +kernel
  have hfinite : v.isFinite = true := by decide +kernel
  have hx : evaluate ("-" ++ "(" ++ "-(-(-4))" ++ ")" ++ " 5") = .ok (-v) := by decide +kernel
  have htext : v.display = "-4" := by decide +kernel
  have hgroup := evaluate_group_display ht hall hv hfinite hx
  rw [htext] at hgroup
  exact ⟨ts, ht, hall, hv, hfinite, hx, htext, hgroup⟩

end StackCalc
