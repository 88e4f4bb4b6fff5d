import Mathlib.Control.Monad.Basic
import StackCalc.Proofs.Parsing.Contexts
import StackCalc.Proofs.Parsing.Emission

/-!
# Code and formulas

A formula is what is left of a tree without its parentheses and without the tokens it was written with. Code
is read back into a formula by putting formulas on a stack where the machine puts values. So two expressions
have the same code if and only if they have the same formula.
-/

namespace StackCalc

inductive Formula where
  | number (value : Cell)
  | negation (operand : Formula)
  | binary (op : Operator) (left right : Formula)
deriving DecidableEq

namespace Formula

def code : Formula → List Cell
  | number x => [Opcode.pushNumber.cell, x]
  | negation f => f.code ++ [Opcode.negate.cell]
  | binary op l r => l.code ++ r.code ++ [(Opcode.operate op).cell]

/-- What an instruction makes of formulas, the last one on top. -/
def push : List Formula → Instruction → Option (List Formula)
  | stack, .push x => some (number x :: stack)
  | operand :: stack, .negate => some (negation operand :: stack)
  | right :: left :: stack, .operate op => some (binary op left right :: stack)
  | stack, .halt => some stack
  | _, _ => none

def ofCode? (code : List Cell) : Option Formula := do
  let stack ← ((Instruction.decode 0 code).map Prod.snd).foldlM push []
  stack.head?

end Formula

namespace Expr

def formula : Expr → Formula
  | number _ x => .number x
  | group _ e _ => e.formula
  | negation _ e => .negation e.formula
  | binary op _ l r => .binary op l.formula r.formula

theorem code_eq (e : Expr) : e.code = e.formula.code := by
  induction e with
  | number => rfl
  | group _ e _ ih => exact ih
  | negation _ e ih => rw [code_negation, ih, formula, Formula.code]
  | binary op _ l r ihl ihr => rw [code_binary, ihl, ihr, formula, Formula.code]

theorem foldlM_instructions (e : Expr) (stack : List Formula) :
    (e.instructions.map Prod.fst).foldlM Formula.push stack = some (e.formula :: stack) := by
  induction e generalizing stack with
  | number => rfl
  | group _ e _ ih => exact ih stack
  | negation _ e ih =>
    rw [instructions, List.map_append, List.foldlM_append, ih]
    rfl
  | binary op _ l r ihl ihr =>
    rw [instructions, List.map_append, List.map_append, List.foldlM_append, List.foldlM_append, ihl]
    simp only [Option.bind_eq_bind, Option.bind_some, ihr]
    rfl

theorem ofCode?_code (e : Expr) : Formula.ofCode? (e.code ++ [Opcode.halt.cell]) = some e.formula := by
  have hcode : e.code ++ [Opcode.halt.cell] = (Instruction.lay (e.program 0)).map Prod.fst := by
    rw [program, Instruction.lay_append, List.map_append, ← e.cells_eq_lay]
    rfl
  have hinstructions : (Instruction.decode 0 (e.code ++ [Opcode.halt.cell])).map Prod.snd =
      e.instructions.map Prod.fst ++ [.halt] := by
    rw [hcode, Instruction.decode_eq_place (fun _ => whole_of_mem_program), Instruction.map_place, program,
      List.map_append]
    rfl
  -- The halt finds the formula on the stack and leaves it there.
  rw [Formula.ofCode?, hinstructions, List.foldlM_append, foldlM_instructions]
  rfl

theorem code_eq_iff {e e' : Expr} : e.code = e'.code ↔ e.formula = e'.formula := by
  constructor
  · intro h
    have hread := e.ofCode?_code
    rw [h, e'.ofCode?_code] at hread
    exact (Option.some.inj hread).symm
  · intro h
    rw [code_eq, code_eq, h]

end Expr

section Parentheses

variable {e e' : Expr} {s : Phrase}

theorem Context.formula_plug (k : Context) (h : e'.formula = e.formula) :
    (k.plug e').formula = (k.plug e).formula := by
  induction k with
  | hole => exact h
  | group _ k _ ih => exact ih
  | negation _ k ih => simp only [plug, Expr.formula, ih]
  | left _ _ k r ih => simp only [plug, Expr.formula, ih]
  | right _ _ l k ih => simp only [plug, Expr.formula, ih]

theorem Phrase.sum_precedence_le (s : Phrase) : sum.precedence ≤ s.precedence := by
  cases s <;> decide

theorem Context.derives_plug_group (k : Context) (opening closing : Mark) (h : (k.plug e).Derives s) :
    (k.plug (.group opening e closing)).Derives s := by
  obtain ⟨s', he, hplug⟩ := k.exists_phrase_of_plug h
  exact hplug _ (Expr.derives_group_iff.mpr (he.loosen s'.sum_precedence_le))

theorem Context.heads_plug (k : Context) {rest : List Token} (hderives : (k.plug e).Derives .sum)
    (hneed : (k.plug e).need ≤ Compiler.maxDepth) (hrest : ∀ t ∈ rest.head?, ∀ op : Operator, t.kind ≠ op.kind) :
    (k.plug e).Heads (some Compiler.maxDepth) (k.before ++ (e.tokens ++ (k.after ++ rest))) := by
  refine ⟨hderives, ?_, rest, by simp [tokens_plug], hrest⟩
  rintro n ⟨⟩
  exact hneed

end Parentheses

namespace Compiler

theorem compile_code_eq_iff :
    (∀ ts ts' c c', compile ts = .ok c → compile ts' = .ok c' → ∃ e e' : Expr,
      e.Heads (some maxDepth) ts ∧ e'.Heads (some maxDepth) ts' ∧ (c.code = c'.code ↔ e.formula = e'.formula)) ∧
    ∀ (k : Context) (opening closing : Mark) (e : Expr) (rest : List Token),
      (k.plug e).Derives .sum → (k.plug (.group opening e closing)).need ≤ maxDepth →
      (∀ t ∈ rest.head?, ∀ op : Operator, t.kind ≠ op.kind) → ∃ c c',
        compile (k.before ++ (e.tokens ++ (k.after ++ rest))) = .ok c ∧
        compile (k.before ++
          opening.token .leftParen :: (e.tokens ++ closing.token .rightParen :: (k.after ++ rest))) = .ok c' ∧
        c.code = c'.code := by
  have hcode {e e' : Expr} {ts ts' : List Token} {c c' : Chunk} (he : e.Heads (some maxDepth) ts)
      (he' : e'.Heads (some maxDepth) ts') (hc : compile ts = .ok c) (hc' : compile ts' = .ok c') :
      c.code = c'.code ↔ e.formula = e'.formula := by
    rw [← Array.toList_inj, code_of_compileWithin he hc, code_of_compileWithin he' hc', List.append_left_inj,
      Expr.code_eq_iff]
  constructor
  · intro ts ts' c c' hc hc'
    obtain ⟨e, he⟩ := heads_of_compileWithin hc
    obtain ⟨e', he'⟩ := heads_of_compileWithin hc'
    exact ⟨e, e', he, he', hcode he he' hc hc'⟩
  · intro k opening closing e rest hderives hneed hrest
    have hle : e.need ≤ (Expr.group opening e closing).need := Nat.le_add_left _ _
    have he := k.heads_plug hderives (Nat.le_trans (k.need_plug_le hle) hneed) hrest
    have hgroup := k.heads_plug (k.derives_plug_group opening closing hderives) hneed hrest
    rw [Expr.tokens, List.cons_append, List.append_assoc, List.singleton_append] at hgroup
    have hc := compileWithin_of_heads he
    have hc' := compileWithin_of_heads hgroup
    have hformula : (k.plug e).formula = (k.plug (.group opening e closing)).formula := k.formula_plug rfl
    exact ⟨_, _, hc, hc', (hcode he hgroup hc hc').mpr hformula⟩

theorem compile_code_eq_iff_difference :
    let number (s : String) : Token := ⟨.number, s, 1⟩
    let minus : Token := ⟨.minus, "-", 1⟩
    let opening : Token := ⟨.leftParen, "(", 1⟩
    let closing : Token := ⟨.rightParen, ")", 1⟩
    let chain := [number "2", minus, number "3", minus, number "4"]
    let left := [opening, number "2", minus, number "3", closing, minus, number "4"]
    let right := [number "2", minus, opening, number "3", minus, number "4", closing]
    (∃ c c', compile chain = .ok c ∧ compile left = .ok c' ∧ c.code = c'.code) ∧
      ∃ c c', compile chain = .ok c ∧ compile right = .ok c' ∧ c.code ≠ c'.code ∧ ∃ e e' : Expr,
        e.Heads (some maxDepth) chain ∧ e'.Heads (some maxDepth) right ∧ e.formula ≠ e'.formula := by
  intro number minus opening closing chain left right
  obtain ⟨hiff, hgroup⟩ := compile_code_eq_iff
  constructor
  · have hnumber (s : String) (n : Nat) (h : Numeral.read? s = some (.ofNat n)) :
        Expr.Derives .operand (.number ⟨s, 1⟩ (.ofNat n)) := .number h
    have htwo := hnumber "2" 2 (by decide +kernel)
    have hthree := hnumber "3" 3 (by decide +kernel)
    have hfour := hnumber "4" 4 (by decide +kernel)
    let k : Context := .left .subtract ⟨"-", 1⟩ .hole (.number ⟨"4", 1⟩ (.ofNat 4))
    let e : Expr := .binary .subtract ⟨"-", 1⟩ (.number ⟨"2", 1⟩ (.ofNat 2)) (.number ⟨"3", 1⟩ (.ofNat 3))
    have he : e.Derives .sum :=
      .sum (.inr rfl) (.term (.factor (.operand htwo))) (.factor (.operand hthree))
    have hderives : (k.plug e).Derives .sum := .sum (.inr rfl) he (.factor (.operand hfour))
    exact hgroup k ⟨"(", 1⟩ ⟨")", 1⟩ e [] hderives (by decide +kernel) (by simp)
  · have hsome (ts : List Token) (h : (compile ts).toBool = true) : ∃ c, compile ts = .ok c := by
      cases hc : compile ts with
      | ok c => exact ⟨c, rfl⟩
      | error f =>
        rw [hc] at h
        cases h
    obtain ⟨c, hc⟩ := hsome chain (by decide +kernel)
    obtain ⟨c', hc'⟩ := hsome right (by decide +kernel)
    have hne : (compile chain).map Chunk.code ≠ (compile right).map Chunk.code := by decide +kernel
    obtain ⟨e, e', he, he', hcode⟩ := hiff chain right c c' hc hc'
    rw [hc, hc'] at hne
    have hne : c.code ≠ c'.code := fun h => hne (congrArg Except.ok h)
    exact ⟨c, c', hc, hc', hne, e, e', he, he', fun h => hne (hcode.mpr h)⟩

end Compiler

end StackCalc
