import StackCalc.Program
import StackCalc.Proofs.Parsing.Relocation
import StackCalc.Proofs.Scanning.Respacing
import StackCalc.Proofs.Scanning.Tokens

/-!
# Blanks between words

Source texts with the same words have the same tokens, the same code and the same value, or the same error.
Only the lines may be others.
-/

namespace StackCalc

variable {s s' : String}

theorem tokenize_cases_of_words (h : Text.words s.toList = Text.words s'.toList) :
    (∃ ts ts', tokenize s = .ok ts ∧ tokenize s' = .ok ts' ∧ SpelledAlike ts ts') ∨
      ∃ lexeme line line', tokenize s = .error (.unexpectedSymbol lexeme line) ∧
        tokenize s' = .error (.unexpectedSymbol lexeme line') := by
  have hs' : String.ofList s'.toList = s' := String.ofList_toList
  rcases tokenize_cases s with ⟨found, hsplits, hok⟩ | ⟨p, found, text, q, hs, hsplits, ht, herror⟩
  · obtain ⟨found', hsplits', hspelling⟩ := hsplits.exists_respaced_all h []
    have hok' := tokenize_of_splits hsplits'
    rw [hs'] at hok'
    exact .inl ⟨_, _, hok, hok', spelledAlike_of_moved hspelling⟩
  · rw [hs] at h
    obtain ⟨p', found', q', hcs', hsplits', ht', -⟩ := hsplits.exists_respaced_refused ht h []
    have herror' := tokenize_of_refused hsplits' ht'
    rw [← hcs', hs'] at herror'
    exact .inr ⟨_, _, _, herror, herror'⟩

theorem tokenize_of_words (h : Text.words s.toList = Text.words s'.toList) :
    ((tokenize s').map (·.map Token.spelling)).mapError LexError.forgetLine =
      ((tokenize s).map (·.map Token.spelling)).mapError LexError.forgetLine := by
  rcases tokenize_cases_of_words h with ⟨ts, ts', hs, hs', halike⟩ | ⟨lexeme, line, line', hs, hs'⟩
  · rw [hs, hs']
    exact congrArg Except.ok halike.symm
  · rw [hs, hs']
    rfl

theorem compile_of_words (h : Text.words s.toList = Text.words s'.toList) :
    ((compile s').map Chunk.code).mapError Failure.forgetLine =
      ((compile s).map Chunk.code).mapError Failure.forgetLine := by
  rw [compile, compile]
  rcases tokenize_cases_of_words h with ⟨ts, ts', hs, hs', halike⟩ | ⟨lexeme, line, line', hs, hs'⟩
  · rw [hs, hs']
    exact Compiler.compileWithin_alike (some Compiler.maxDepth) halike
  · rw [hs, hs']
    rfl

theorem evaluate_forgetLine (s : String) : (evaluate s).mapError Failure.forgetLine =
    (((compile s).map Chunk.code).mapError Failure.forgetLine).bind
      fun code => (execute code.toList).mapError Failure.runtime := by
  rw [evaluate]
  cases compile s with
  | error f => rfl
  | ok chunk =>
    change ((execute chunk.code.toList).mapError _).mapError _ = (execute chunk.code.toList).mapError _
    cases execute chunk.code.toList <;> rfl

theorem evaluate_of_words (h : Text.words s.toList = Text.words s'.toList) :
    (evaluate s').mapError Failure.forgetLine = (evaluate s).mapError Failure.forgetLine := by
  rw [evaluate_forgetLine, evaluate_forgetLine, compile_of_words h]

theorem blanks_insignificant (h : Text.Respaced s.toList s'.toList) :
    ((tokenize s').map (·.map Token.spelling)).mapError LexError.forgetLine =
      ((tokenize s).map (·.map Token.spelling)).mapError LexError.forgetLine ∧
    ((compile s').map Chunk.code).mapError Failure.forgetLine =
      ((compile s).map Chunk.code).mapError Failure.forgetLine ∧
    (evaluate s').mapError Failure.forgetLine = (evaluate s).mapError Failure.forgetLine :=
  ⟨tokenize_of_words h.words_eq, compile_of_words h.words_eq, evaluate_of_words h.words_eq⟩

theorem blanks_insignificant_difference : let s := "8 -\n 3"
    let s' := "\t8\u2003-\u00a03\n"
    Text.Respaced s.toList s'.toList ∧ (tokenize s).map (·.map Token.line) = .ok [1, 1, 2] ∧
      (tokenize s').map (·.map Token.line) = .ok [1, 1, 1] ∧
      (evaluate s').mapError Failure.forgetLine = .ok ⟨0x4014000000000000⟩ := by
  intro s s'
  have hright : Text.Regapped (['\n', ' '] ++ ['3']) (['\u00a0'] ++ ['3']) :=
    .gap (by decide) (by decide) (by decide) (by decide) (.char .nil)
  have hleft : Text.Regapped ([' '] ++ ['-', '\n', ' ', '3']) (['\u2003'] ++ ['-', '\u00a0', '3']) :=
    .gap (by decide) (by decide) (by decide) (by decide) (.char hright)
  have hs : s.toList = [] ++ (('8' :: ([' '] ++ ['-', '\n', ' ', '3'])) ++ []) := by decide +kernel
  have hs' : s'.toList = ['\t'] ++ (('8' :: (['\u2003'] ++ ['-', '\u00a0', '3'])) ++ ['\n']) := by decide +kernel
  have hrespaced : Text.Respaced s.toList s'.toList := by
    rw [hs, hs']
    exact .ends (by decide) (by decide) (by decide) (by decide) (.char hleft)
  have hvalue : (evaluate s).mapError Failure.forgetLine = .ok ⟨0x4014000000000000⟩ := by decide +kernel
  obtain ⟨-, -, hevaluate⟩ := blanks_insignificant hrespaced
  exact ⟨hrespaced, by decide +kernel, by decide +kernel, hevaluate.trans hvalue⟩

end StackCalc
