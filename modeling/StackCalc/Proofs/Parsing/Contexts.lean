import StackCalc.Proofs.Parsing.Language

/-!
# Trees around a group

A context is a tree with a hole. Every opening parenthesis among the tokens of a tree belongs to a
group, and the rest of the tree is the context of the group. What is inside may give way to a tree with
the same value that nests no deeper.
-/

namespace StackCalc

inductive Context where
  | hole
  | group (opening : Mark) (inner : Context) (closing : Mark)
  | negation (mark : Mark) (operand : Context)
  | left (op : Operator) (mark : Mark) (inner : Context) (right : Expr)
  | right (op : Operator) (mark : Mark) (left : Expr) (inner : Context)

namespace Context

def plug : Context → Expr → Expr
  | hole, e => e
  | group opening c closing, e => .group opening (c.plug e) closing
  | negation m c, e => .negation m (c.plug e)
  | left op m c r, e => .binary op m (c.plug e) r
  | right op m l c, e => .binary op m l (c.plug e)

def before : Context → List Token
  | hole => []
  | group opening c _ => opening.token .leftParen :: c.before
  | negation m c => m.token .minus :: c.before
  | left _ _ c _ => c.before
  | right op m l c => l.tokens ++ m.token op.kind :: c.before

def after : Context → List Token
  | hole => []
  | group _ c closing => c.after ++ [closing.token .rightParen]
  | negation _ c => c.after
  | left op m c r => c.after ++ m.token op.kind :: r.tokens
  | right _ _ _ c => c.after

variable {e e' : Expr} {s : Phrase}

theorem tokens_plug (c : Context) (e : Expr) : (c.plug e).tokens = c.before ++ (e.tokens ++ c.after) := by
  induction c with
  | hole => simp [plug, before, after]
  | group _ c _ ih => simp [plug, before, after, Expr.tokens, ih]
  | negation _ c ih => simp [plug, before, after, Expr.tokens, ih]
  | left _ _ c r ih => simp [plug, before, after, Expr.tokens, ih]
  | right _ _ l c ih => simp [plug, before, after, Expr.tokens, ih]

theorem value_plug (c : Context) (h : e'.value = e.value) : (c.plug e').value = (c.plug e).value := by
  induction c with
  | hole => exact h
  | group _ c _ ih => exact ih
  | negation _ c ih => simp only [plug, Expr.value, ih]
  | left _ _ c r ih => simp only [plug, Expr.value, ih]
  | right _ _ l c ih => simp only [plug, Expr.value, ih]

theorem need_plug_le (c : Context) (h : e'.need ≤ e.need) : (c.plug e').need ≤ (c.plug e).need := by
  induction c with
  | hole => exact h
  | _ =>
    simp only [plug, Expr.need]
    omega

theorem exists_phrase_of_plug (c : Context) (h : (c.plug e).Derives s) :
    ∃ s', e.Derives s' ∧ ∀ e' : Expr, e'.Derives s' → (c.plug e').Derives s := by
  induction c generalizing s with
  | hole => exact ⟨s, h, fun _ he' => he'⟩
  | group _ c _ ih =>
    obtain ⟨s', he, hplug⟩ := ih (Expr.derives_group_iff.mp h)
    exact ⟨s', he, fun e' he' => Expr.derives_group_iff.mpr (hplug e' he')⟩
  | negation _ c ih =>
    obtain ⟨s', he, hplug⟩ := ih (Expr.derives_negation_iff.mp h)
    exact ⟨s', he, fun e' he' => Expr.derives_negation_iff.mpr (hplug e' he')⟩
  | left _ _ c r ih =>
    obtain ⟨hs, hl, hr⟩ := Expr.derives_binary_iff.mp h
    obtain ⟨s', he, hplug⟩ := ih hl
    exact ⟨s', he, fun e' he' => Expr.derives_binary_iff.mpr ⟨hs, hplug e' he', hr⟩⟩
  | right _ _ l c ih =>
    obtain ⟨hs, hl, hr⟩ := Expr.derives_binary_iff.mp h
    obtain ⟨s', he, hplug⟩ := ih hr
    exact ⟨s', he, fun e' he' => Expr.derives_binary_iff.mpr ⟨hs, hl, hplug e' he'⟩⟩

end Context

section Groups

variable {limit : Option Nat} {o c t : Token} {ts xs ys zs : List Token} {e w w' : Expr}

theorem exists_cons_of_append (ho : o.kind = .leftParen) (ht : t.kind ≠ .leftParen)
    (h : t :: ts = xs ++ o :: ys) : ∃ xs', xs = t :: xs' ∧ ts = xs' ++ o :: ys := by
  cases xs with
  | nil =>
    cases h
    exact absurd ho ht
  | cons x xs =>
    cases h
    exact ⟨xs, rfl, rfl⟩

theorem Operator.kind_ne_leftParen (op : Operator) : op.kind ≠ .leftParen := by
  cases op <;> decide

theorem exists_context (ho : o.kind = .leftParen) (e : Expr) (h : e.tokens ++ ts = xs ++ o :: ys) :
    e.tokens <+: xs ∨
      ∃ (k : Context) (opening closing : Mark) (g : Expr), e = k.plug (.group opening g closing) ∧ xs = k.before := by
  induction e generalizing xs ts with
  | number m x =>
    obtain ⟨xs', rfl, -⟩ := exists_cons_of_append ho (Kind.noConfusion : (m.token .number).kind ≠ .leftParen) h
    exact .inl ⟨xs', rfl⟩
  | group opening e closing ih =>
    cases xs with
    | nil => exact .inr ⟨.hole, opening, closing, e, rfl, rfl⟩
    | cons x xs =>
      have hinner : e.tokens ++ (closing.token .rightParen :: ts) = xs ++ o :: ys := by
        simpa [Expr.tokens] using (List.cons.inj h).2
      obtain rfl : opening.token .leftParen = x := (List.cons.inj h).1
      rcases ih hinner with ⟨xs', rfl⟩ | ⟨k, opening', closing', g, rfl, rfl⟩
      · -- What comes after the tokens inside comes after the closing parenthesis as well.
        rw [List.append_assoc] at hinner
        have hclosing : (closing.token .rightParen).kind ≠ .leftParen := Kind.noConfusion
        obtain ⟨xs'', rfl, -⟩ := exists_cons_of_append ho hclosing (List.append_cancel_left hinner)
        exact .inl ⟨xs'', by simp [Expr.tokens]⟩
      · exact .inr ⟨.group opening k closing, opening', closing', g, rfl, rfl⟩
  | negation m e ih =>
    obtain ⟨xs', rfl, hinner⟩ := exists_cons_of_append ho (Kind.noConfusion : (m.token .minus).kind ≠ .leftParen) h
    rcases ih hinner with ⟨xs'', rfl⟩ | ⟨k, opening, closing, g, rfl, rfl⟩
    · exact .inl ⟨xs'', rfl⟩
    · exact .inr ⟨.negation m k, opening, closing, g, rfl, rfl⟩
  | binary op m l r ihl ihr =>
    have hleft : l.tokens ++ (m.token op.kind :: (r.tokens ++ ts)) = xs ++ o :: ys := by
      simpa [Expr.tokens] using h
    rcases ihl hleft with ⟨afterLeft, rfl⟩ | ⟨k, opening, closing, g, rfl, rfl⟩
    · rw [List.append_assoc] at hleft
      obtain ⟨afterOperator, rfl, hright⟩ :=
        exists_cons_of_append ho op.kind_ne_leftParen (List.append_cancel_left hleft)
      rcases ihr hright with ⟨afterRight, rfl⟩ | ⟨k, opening, closing, g, rfl, rfl⟩
      · exact .inl ⟨afterRight, by simp [Expr.tokens]⟩
      · exact .inr ⟨.right op m l k, opening, closing, g, rfl, rfl⟩
    · exact .inr ⟨.left op m k r, opening, closing, g, rfl, rfl⟩

theorem Expr.Derives.eq_of_rightParen {e' : Expr} {c' : Token} (he : e.Derives .sum) (he' : e'.Derives .sum)
    (hc : c.kind = .rightParen) (hc' : c'.kind = .rightParen) (h : e.tokens ++ c :: ts = e'.tokens ++ c' :: xs) :
    e' = e := by
  have hstop {t : Token} {ts : List Token} (ht : t.kind = .rightParen) :
      ∀ t' ∈ (t :: ts).head?, ∀ op : Operator, t'.kind ≠ op.kind :=
    Compiler.stops_unit_iff.mp (Compiler.stops_cons_rightParen ht)
  -- Both are read from the same tokens, since no operator follows either.
  have hheads : e.Heads none (e.tokens ++ c :: ts) := ⟨he, by simp, _, rfl, hstop hc⟩
  have hheads' : e'.Heads none (e.tokens ++ c :: ts) := ⟨he', by simp, _, h, hstop hc'⟩
  exact Compiler.heads_unique hheads hheads'

theorem Expr.Heads.replace_group (ho : o.kind = .leftParen) (hc : c.kind = .rightParen)
    (hw : w.Derives .sum) (hw' : w'.Derives .sum) (hvalue : w'.value = w.value) (hneed : w'.need ≤ w.need)
    (h : e.Heads limit (xs ++ o :: (w.tokens ++ c :: ys))) :
    ∃ e' : Expr, e'.Heads limit (xs ++ o :: (w'.tokens ++ c :: ys)) ∧ e'.value = e.value := by
  obtain ⟨hderives, hlimit, rest, htokens, hrest⟩ := h
  rcases exists_context ho e htokens.symm with ⟨xs', rfl⟩ | ⟨k, opening, closing, g, rfl, rfl⟩
  · rw [List.append_assoc] at htokens
    obtain rfl := List.append_cancel_left htokens
    refine ⟨e, ⟨hderives, hlimit, xs' ++ o :: (w'.tokens ++ c :: ys), by simp, ?_⟩, rfl⟩
    cases xs' <;> exact hrest
  · have hgroup : opening.token .leftParen :: (g.tokens ++ closing.token .rightParen :: (k.after ++ rest)) =
        o :: (w.tokens ++ c :: ys) := by
      rw [Context.tokens_plug, List.append_assoc] at htokens
      simpa [Expr.tokens] using (List.append_cancel_left htokens).symm
    obtain ⟨rfl, hinner⟩ := List.cons.inj hgroup
    obtain ⟨s, hg, hplug⟩ := k.exists_phrase_of_plug hderives
    have hsum := Expr.derives_group_iff.mp hg
    obtain rfl := hw.eq_of_rightParen hsum hc rfl hinner.symm
    obtain ⟨rfl, rfl⟩ := List.cons.inj (List.append_cancel_left hinner)
    refine ⟨k.plug (.group opening w' closing), ⟨?_, ?_, rest, ?_, hrest⟩, k.value_plug hvalue⟩
    · exact hplug _ (Expr.derives_group_iff.mpr hw')
    · intro n hn
      have hgroup : (Expr.group opening w' closing).need ≤ (Expr.group opening g closing).need :=
        Nat.add_le_add_left hneed 1
      exact Nat.le_trans (k.need_plug_le hgroup) (hlimit n hn)
    · rw [Context.tokens_plug]
      simp [Expr.tokens]

end Groups

end StackCalc
