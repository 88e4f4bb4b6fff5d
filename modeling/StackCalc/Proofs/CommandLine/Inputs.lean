import StackCalc.Proofs.CommandLine.Endings

/-!
# More than one input

A file is refused behind another input, and nothing is evaluated. An expression is not refused: it takes the
place of the inputs in front of it, and the last one is evaluated.
-/

namespace StackCalc.CommandLine

variable {words : List Word} {args : List String}

theorem ne_session_of_mem {input : Input} (h : input ∈ inputs words) : input ≠ .session := by
  obtain ⟨w, -, hw⟩ := List.mem_filterMap.mp h
  rintro rfl
  cases w <;> cases hw

theorem exists_last_expression (htwo : 2 ≤ (inputs words).length)
    (hfile : ∀ path, .file path ∉ (inputs words).tail) :
    ∃ source, (inputs words).getLast? = some (.expression source) := by
  have htail : (inputs words).tail.getLast? = (inputs words).getLast? := by
    rw [List.getLast?_tail, if_neg (by omega)]
  cases hlast : (inputs words).getLast? with
  | none =>
    rw [List.getLast?_eq_none_iff.mp hlast] at htwo
    cases htwo
  | some input =>
    have hmem : input ∈ (inputs words).tail := List.mem_of_getLast? (htail.trans hlast)
    cases input with
    | session => exact absurd rfl (ne_session_of_mem (List.mem_of_mem_tail hmem))
    | file path => exact absurd hmem (hfile path)
    | expression source => exact ⟨source, rfl⟩

theorem run_of_inputs (h : Spells words args) (htwo : 2 ≤ (inputs words).length) (colored : Bool)
    (readFile : String → Except ReadError (List UInt8)) (stdin : List UInt8) :
    let requested := (flags words).contains
    let outcome := run colored readFile stdin args
    (outcome = { stdout := "", stderr := "Only one file or expression can be specified\n" ++ usage, exitCode := 64 } ↔
      ∃ path, .file path ∈ (inputs words).tail) ∧
    ((∀ path, .file path ∉ (inputs words).tail) → ∃ source, (inputs words).getLast? = some (.expression source) ∧
      Ends readFile (colored && !requested "--no-color") (requested "--bytecode") (requested "--disassemble")
        (.expression source) outcome) := by
  intro requested outcome
  have hends (hfile : ∀ path, .file path ∉ (inputs words).tail) : ∃ source,
      (inputs words).getLast? = some (.expression source) ∧
        Ends readFile (colored && !requested "--no-color") (requested "--bytecode") (requested "--disassemble")
          (.expression source) outcome := by
    obtain ⟨source, hlast⟩ := exists_last_expression htwo hfile
    exact ⟨source, hlast, ends_run_of_spells h hfile hlast nofun colored readFile stdin⟩
  refine ⟨⟨?_, ?_⟩, hends⟩
  · intro hrefusal
    by_contra hnone
    obtain ⟨source, -, hsource⟩ := hends fun path hmem => hnone ⟨path, hmem⟩
    rw [hrefusal] at hsource
    rcases hsource.exitCode_cases with ⟨hcode, -⟩ | ⟨hcode | hcode, -⟩ <;> cases hcode
  · rintro ⟨path, hmem⟩
    simp only [outcome, run, parse_of_refused h hmem]
    rfl

theorem run_of_inputs_file : let args := ["-e", "1", "--no-color", "f"]
    let words : List Word := [.expression "1", .switch "--no-color", .file "f"]
    Spells words args ∧ 2 ≤ (inputs words).length ∧ ∀ readFile, run true readFile [] args =
      { stdout := "", stderr := "Only one file or expression can be specified\n" ++ usage, exitCode := 64 } := by
  intro args words
  have hwords : Spells words args := .expression (.switch (by decide) (.file (by decide) .nil))
  have htwo : 2 ≤ (inputs words).length := by decide
  refine ⟨hwords, htwo, fun readFile => ?_⟩
  exact (run_of_inputs hwords htwo true readFile []).1.mpr ⟨"f", by decide⟩

theorem run_two_expressions : let args := ["-e", "1", "-e", "2"]
    let words : List Word := [.expression "1", .expression "2"]
    let readFile : String → Except ReadError (List UInt8) := fun _ => .error .notFound
    Spells words args ∧ 2 ≤ (inputs words).length ∧
      run false readFile [] args = { stdout := "2\n", stderr := "", exitCode := 0 } ∧
      run false readFile [] args ≠
        { stdout := "", stderr := "Only one file or expression can be specified\n" ++ usage, exitCode := 64 } := by
  intro args words readFile
  have hrun : run false readFile [] args = { stdout := "2\n", stderr := "", exitCode := 0 } := by decide +kernel
  refine ⟨.expression (.expression .nil), by decide, hrun, ?_⟩
  rw [hrun]
  intro h
  cases congrArg Outcome.exitCode h

end StackCalc.CommandLine
