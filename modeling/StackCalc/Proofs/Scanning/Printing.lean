import StackCalc.Proofs.Scanning.Respacing
import StackCalc.Proofs.Scanning.Tokens

/-!
# Printed lexemes

Lexemes that are printed one after the other are read back as they are, with any blanks around them. Blanks
between two of them are needed only where the two would be read as other lexemes if they touched.
-/

namespace StackCalc

open Text (Blanks Ends)

namespace Kind

/-- Lexemes of the two kinds are not read back if they touch. -/
def merges : Kind → Kind → Bool
  | number, number | star, star | star, starStar => true
  | _, _ => false

variable {k k' : Kind} {text text' after : List Char}

theorem not_extends_of_ends (hw : k ≠ .whitespace) (hs : k ≠ .symbol) (h : Ends after) :
    ¬k.Extends text after := by
  intro he
  obtain ⟨c, rest, rfl, hc⟩ := he.exists_head hw hs
  have hb := h c rfl
  rcases hc with ⟨-, hd | rfl⟩ | ⟨-, rfl⟩
  · exact not_isDigit_of_isBlank hb hd
  · exact absurd hb (by decide)
  · exact absurd hb (by decide)

theorem not_extends_of_matches (hw : k ≠ .whitespace) (hs : k ≠ .symbol) (hs' : k' ≠ .symbol)
    (hm : k'.Matches text') (h : k.merges k' = false) : ¬k.Extends text (text' ++ after) := by
  intro he
  obtain ⟨c, rest, hafter, hc⟩ := he.exists_head hw hs
  obtain ⟨d, tail, rfl⟩ := List.exists_cons_of_ne_nil hm.ne_nil
  cases hafter
  have hleader := hm.leader_eq hs'
  rcases hc with ⟨rfl, hd | rfl⟩ | ⟨rfl, rfl⟩
  · rw [leader, if_pos hd] at hleader
    revert hs' hleader h
    cases k' <;> decide
  · revert hs' hleader
    cases k' <;> decide
  · revert hs' hleader h
    cases k' <;> decide

end Kind

structure Printed where
  gap : List Char
  kind : Kind
  text : List Char

namespace Printed

structure WellFormed (p : Printed) : Prop where
  gap : Blanks p.gap
  not_whitespace : p.kind ≠ .whitespace
  not_symbol : p.kind ≠ .symbol
  text : p.kind.Matches p.text

def Apart (p q : Printed) : Prop := p.kind.merges q.kind = true → q.gap ≠ []

instance : DecidableRel Apart := fun p q => inferInstanceAs (Decidable (p.kind.merges q.kind = true → q.gap ≠ []))

def print (back : List Char) : List Printed → List Char
  | [] => back
  | p :: ps => p.gap ++ (p.text ++ print back ps)

def lexemes (before : List Char) (ps : List Printed) : List Lexeme :=
  ps.mapIdx fun n p => ⟨p.kind, p.text, before ++ print p.gap (ps.take n)⟩

variable {p : Printed} {ps : List Printed} {before back : List Char}

theorem lexemes_cons (before : List Char) (p : Printed) (ps : List Printed) : lexemes before (p :: ps) =
    ⟨p.kind, p.text, before ++ p.gap⟩ :: lexemes (before ++ p.gap ++ p.text) ps := by
  simp [lexemes, List.mapIdx_cons, print]

theorem not_extends_print (hback : Blanks back) (hp : p.WellFormed) (hps : ∀ q ∈ ps, q.WellFormed)
    (hapart : (p :: ps).IsChain Apart) : ¬p.kind.Extends p.text (print back ps) := by
  cases ps with
  | nil =>
    apply Kind.not_extends_of_ends hp.not_whitespace hp.not_symbol
    intro c hc
    exact hback c (List.mem_of_mem_head? hc)
  | cons q ps =>
    have hq := hps q (List.mem_cons_self ..)
    by_cases hgap : q.gap = []
    · have hmerges : p.kind.merges q.kind = false := by
        by_contra h
        exact (List.isChain_cons_cons.mp hapart).1 (by simpa using h) hgap
      rw [print, hgap, List.nil_append]
      exact Kind.not_extends_of_matches hp.not_whitespace hp.not_symbol hq.not_symbol hq.text hmerges
    · apply Kind.not_extends_of_ends hp.not_whitespace hp.not_symbol
      exact Text.ends_blanks_append hq.gap hgap (q.text ++ print back ps)

theorem splits_print (hback : Blanks back) (hps : ∀ p ∈ ps, p.WellFormed) (hapart : ps.IsChain Apart)
    (before : List Char) : Splits before (print back ps) (lexemes before ps) [] := by
  induction ps generalizing before with
  | nil =>
    have hsplits : Splits before (back ++ []) [] [] := .gap hback .nil
    rwa [List.append_nil] at hsplits
  | cons p ps ih =>
    obtain ⟨hp, hps⟩ := List.forall_mem_cons.mp hps
    have hend : ¬p.kind.Extends p.text (print back ps ++ []) := by
      rw [List.append_nil]
      exact not_extends_print hback hp hps hapart
    rw [lexemes_cons, print]
    exact .gap hp.gap (.lexeme hp.not_whitespace hp.not_symbol hp.text hend (ih hps hapart.of_cons _))

end Printed

open Printed (Apart print)

theorem tokenize_print {ps : List Printed} {back : List Char} (hps : ∀ p ∈ ps, p.WellFormed)
    (hapart : ps.IsChain Apart) (hback : Blanks back) : tokenize (.ofList (print back ps)) =
      .ok (ps.mapIdx fun n p => ⟨p.kind, .ofList p.text, 1 + (print p.gap (ps.take n)).count '\n'⟩) := by
  rw [tokenize_of_splits (Printed.splits_print hback hps hapart [])]
  simp [Printed.lexemes, List.mapIdx_eq_zipIdx_map, Function.comp_def, Lexeme.token, lineAfter]

theorem tokenize_print_touching :
    let ps : List Printed := [⟨[], .starStar, ['*', '*']⟩, ⟨[], .star, ['*']⟩, ⟨['\n'], .starStar, ['*', '*']⟩,
      ⟨[], .number, ['2', '.', '5']⟩, ⟨[], .rightParen, [')']⟩, ⟨[], .number, ['7']⟩,
      ⟨['\n', ' '], .number, ['8']⟩]
    (∀ p ∈ ps, p.WellFormed) ∧ ps.IsChain Apart ∧ Blanks [' '] ∧
      String.ofList (print [' '] ps) = "***\n**2.5)7\n 8 " ∧
      tokenize "***\n**2.5)7\n 8 " = .ok [⟨.starStar, "**", 1⟩, ⟨.star, "*", 1⟩, ⟨.starStar, "**", 2⟩,
        ⟨.number, "2.5", 2⟩, ⟨.rightParen, ")", 2⟩, ⟨.number, "7", 2⟩, ⟨.number, "8", 3⟩] := by
  intro ps
  have hdigits (c : Char) (hc : c.isDigit = true) : Digits [c] := by
    refine ⟨List.cons_ne_nil c [], ?_⟩
    simpa using hc
  have hpoint : Kind.Matches .number ['2', '.', '5'] := .inr ⟨['2'], ['5'], hdigits '2' rfl, hdigits '5' rfl, rfl⟩
  have htexts : ∀ p ∈ ps, p.kind.Matches p.text := by
    simp only [ps, List.forall_mem_cons]
    exact ⟨rfl, rfl, rfl, hpoint, rfl, .inl (hdigits '7' rfl), .inl (hdigits '8' rfl), List.forall_mem_nil _⟩
  have hgaps : ∀ p ∈ ps, Blanks p.gap ∧ p.kind ≠ .whitespace ∧ p.kind ≠ .symbol := by decide
  have hps : ∀ p ∈ ps, p.WellFormed := by
    intro p hp
    obtain ⟨hgap, hw, hs⟩ := hgaps p hp
    exact ⟨hgap, hw, hs, htexts p hp⟩
  have hapart : ps.IsChain Apart := by decide
  have hback : Blanks [' '] := by decide
  exact ⟨hps, hapart, hback, rfl, tokenize_print hps hapart hback⟩

end StackCalc
