import Mathlib.Control.Monad.Basic
import StackCalc.Proofs.Decimal.Display
import StackCalc.Proofs.Values

/-!
# Reading a result back

The text of a finite cell is a source text: a number, or a minus sign and a number. It has the cell as
its value, so what is printed for it is the same text.
-/

namespace StackCalc

section Lexemes

variable {x : Cell} {k : Kind} {before text after : List Char}

theorem Splits.single (hw : k ≠ .whitespace) (hs : k ≠ .symbol) (hm : k.Matches text)
    (he : ¬k.Extends text after) : Splits before text [⟨k, text, before⟩] after := by
  have h : Splits before (text ++ []) [⟨k, text, before⟩] after := .lexeme hw hs hm he .nil
  rwa [List.append_nil] at h

theorem exists_spans_display (hx : x.isFinite = true) (before : List Char) :
    ∃ e : Expr, e.Spans before x.display.toList ∧ e.value = x ∧ e.need = if x.isNegative then 2 else 1 := by
  obtain ⟨cs, hm, hread, hdisplay⟩ := Cell.exists_display hx
  have hend : ¬Kind.number.Extends cs [] := by
    rintro (⟨_, hc, -⟩ | ⟨-, _, hrest, -⟩)
    · cases hc
    · cases hrest
  have hnumber (before : List Char) : Splits before cs [⟨.number, cs, before⟩] [] :=
    .single (by decide) (by decide) hm hend
  have hderives (line : Nat) : Expr.Derives .operand (.number ⟨.ofList cs, line⟩ x.abs) := .number hread
  cases hsign : x.isNegative with
  | false =>
    simp only [hsign, Bool.false_eq_true, ↓reduceIte] at hdisplay ⊢
    rw [hdisplay, String.toList_ofList]
    refine ⟨.number ⟨.ofList cs, lineAfter before⟩ x.abs, ⟨?_, _, hnumber before, rfl⟩, ?_, rfl⟩
    · exact (hderives _).loosen (by decide)
    · exact Cell.abs_of_not_isNegative hsign
  | true =>
    simp only [hsign, ↓reduceIte] at hdisplay ⊢
    rw [hdisplay, String.toList_ofList]
    have hminus : Kind.minus.Matches ['-'] := rfl
    have hsplits := Splits.lexeme (by decide) (by decide) hminus id (hnumber (before ++ ['-']))
    refine ⟨.negation ⟨.ofList ['-'], lineAfter before⟩ (.number ⟨.ofList cs, lineAfter (before ++ ['-'])⟩ x.abs),
      ⟨?_, _, hsplits, rfl⟩, ?_, rfl⟩
    · exact (Expr.Derives.negation (hderives _)).loosen (by decide)
    · exact Cell.neg_abs_of_isNegative hsign

end Lexemes

theorem evaluate_display_eq {x : Cell} (hx : x.isFinite = true) : evaluate x.display = .ok x := by
  obtain ⟨e, hspans, hvalue, hneed⟩ := exists_spans_display hx []
  rw [hspans.evaluate_eq, hvalue]
  rw [hneed]
  split <;> decide

section Line

variable {x : Cell} {cs : List Char}

theorem Text.trim_eq_self {s : String} (h : ∀ c ∈ s.toList, Text.isBlank c = false) : Text.trim s = s := by
  have hkeep {cs : List Char} (hcs : ∀ c ∈ cs, Text.isBlank c = false) : cs.dropWhile Text.isBlank = cs := by
    cases cs with
    | nil => rfl
    | cons c cs => exact List.dropWhile_cons_of_neg (by simp [hcs c (List.mem_cons_self ..)])
  rw [Text.trim, hkeep h, hkeep (by simpa using h), List.reverse_reverse, String.ofList_toList]

theorem trim_display (hx : x.isFinite = true) : Text.trim x.display = x.display := by
  obtain ⟨cs, hm, -, hdisplay⟩ := Cell.exists_display hx
  apply Text.trim_eq_self
  rw [hdisplay, String.toList_ofList]
  split
  · exact List.forall_mem_cons.mpr ⟨by decide, hm.not_blank (by decide) (by decide)⟩
  · exact hm.not_blank (by decide) (by decide)

theorem head?_display (hx : x.isFinite = true) :
    x.display.toList.head?.any (fun c => c == '-' || c.isDigit) = true := by
  obtain ⟨cs, hm, -, hdisplay⟩ := Cell.exists_display hx
  obtain ⟨c, hc, hd⟩ := Numeral.next_of_matches hm
  rw [hdisplay, String.toList_ofList]
  split
  · rfl
  · rw [hc, Option.any_some, hd, Bool.or_true]

theorem Repl.reply_display (hx : x.isFinite = true) (r : Repl) : r.reply x.display = r.evaluate x.display := by
  -- Commands begin with a letter or a point.
  have hcommand (command : String)
      (h : command.toList.head?.any (fun c => c == '-' || c.isDigit) = false) : x.display ≠ command := by
    rintro rfl
    cases (head?_display hx).symm.trans h
  unfold reply
  rw [trim_display hx]
  split
  case h_9 => rfl
  all_goals
    rename_i htext
    exact absurd htext (hcommand _ rfl)

end Line

theorem evaluate_display :
    (∀ x : Cell, x.isFinite = true → evaluate x.display = .ok x) ∧
    ∀ (source : String) (x : Cell), evaluate source = .ok x → x.isFinite = true →
      (∀ machine : Machine, ((Repl.mk machine false false).evaluate source).1 = .text x.display ∧
        ((Repl.mk machine false false).reply x.display).1 = .text x.display) ∧
      ∀ colored readFile stdin,
        CommandLine.run colored readFile stdin ["-e", source] = { stdout := x.display ++ "\n" } ∧
        CommandLine.run colored readFile stdin ["-e", x.display] = { stdout := x.display ++ "\n" } := by
  refine ⟨fun x hx => evaluate_display_eq hx, ?_⟩
  intro source x h hx
  have hdisplay := evaluate_display_eq hx
  refine ⟨fun machine => ⟨Repl.evaluate_text h machine, ?_⟩, fun colored readFile stdin => ⟨?_, ?_⟩⟩
  · rw [Repl.reply_display hx, Repl.evaluate_text hdisplay]
  · exact CommandLine.run_expression h colored readFile stdin
  · exact CommandLine.run_expression hdisplay colored readFile stdin

theorem evaluate_display_negative : let x : Cell := ⟨0xbfc0000000000000⟩
    x.isFinite = true ∧ x.display = "-0.125" ∧ evaluate "-0.125" = .ok x ∧ evaluate "-(0.125)" = .ok x ∧
      ((Repl.mk {} false false).reply "-0.125").1 = .text "-0.125" := by
  intro x
  have hfinite : x.isFinite = true := by decide +kernel
  have htext : x.display = "-0.125" := by decide +kernel
  have hgroup : evaluate "-(0.125)" = .ok x := by decide +kernel
  obtain ⟨hvalue, hagain⟩ := evaluate_display
  have hx := hvalue x hfinite
  obtain ⟨hrepl, -⟩ := hagain "-(0.125)" x hgroup hfinite
  obtain ⟨-, hreply⟩ := hrepl {}
  rw [htext] at hx hreply
  exact ⟨hfinite, htext, hx, hgroup, hreply⟩

end StackCalc
