import StackCalc.Proofs.Agreement

/-!
# How an evaluation ends

A run with an input writes everything that was asked for and the value, or it writes one diagnostic and nothing
else. What is shown of the code comes first, but code that has been compiled has a value.
-/

namespace StackCalc.CommandLine

section Inputs

variable {readFile : String → Except ReadError (List UInt8)} {source : String} {input : Input}

inductive Input.Reads (readFile : String → Except ReadError (List UInt8)) :
    Input → Except ReadError String → Prop where
  | expression {source : String} : Reads readFile (.expression source) (.ok source)
  | file {path source : String} {bytes : List UInt8} : readFile path = .ok bytes →
    Text.decode? bytes = some source → Reads readFile (.file path) (.ok source)
  | noText {path : String} {bytes : List UInt8} : readFile path = .ok bytes →
    Text.decode? bytes = none → Reads readFile (.file path) (.error .invalidText)
  | unreadable {path : String} {e : ReadError} : readFile path = .error e → Reads readFile (.file path) (.error e)

inductive Ends (readFile : String → Except ReadError (List UInt8)) (color showCode showListing : Bool)
    (input : Input) : Outcome → Prop where
  | value {source : String} {chunk : Chunk} {x : Cell} : input.Reads readFile (.ok source) →
    compile source = .ok chunk → execute chunk.code.toList = .ok x →
    Ends readFile color showCode showListing input
      { stdout := (if showCode then Cell.dumpAll chunk.code.toList ++ "\n" else "") ++
          (if showListing then chunk.listing else "") ++ x.display ++ "\n"
        stderr := ""
        exitCode := 0 }
  | badSource {source : String} {f : Failure} : input.Reads readFile (.ok source) → compile source = .error f →
    ((∃ cause, f = .lex cause) ∨ ∃ cause, f = .parse cause) →
    Ends readFile color showCode showListing input
      { stdout := "", stderr := diagnostic color f.message, exitCode := 65 }
  | unreadable {path : String} {e : ReadError} : input = .file path → input.Reads readFile (.error e) →
    Ends readFile color showCode showListing input
      { stdout := "", stderr := diagnostic color ("cannot read '" ++ path ++ "': " ++ e.message), exitCode := 74 }

theorem ends_evaluate (h : input.Reads readFile (.ok source)) (color : Bool) (inv : Invocation) :
    Ends readFile color inv.showCode inv.showListing input (evaluate color inv source) := by
  rw [evaluate_eq_result]
  rcases result_cases inv.showCode inv.showListing source with ⟨chunk, x, hc, hx, hresult⟩ | ⟨f, hc, hf, hresult⟩
  · rw [hresult]
    exact .value h hc hx
  · rw [hresult]
    refine .badSource h hc ?_
    cases hf with
    | unexpectedSymbol => exact .inl ⟨_, rfl⟩
    | _ => exact .inr ⟨_, rfl⟩

theorem ends_evaluateFile (readFile : String → Except ReadError (List UInt8)) (color : Bool) (inv : Invocation)
    (path : String) : Ends readFile color inv.showCode inv.showListing (.file path)
      (evaluateFile color inv path (readFile path)) := by
  cases hread : readFile path with
  | error e => exact .unreadable rfl (.unreadable hread)
  | ok bytes =>
    rw [evaluateFile]
    cases hdecode : Text.decode? bytes with
    | none => exact .unreadable rfl (.noText hread hdecode)
    | some source => exact ends_evaluate (.file hread hdecode) color inv

theorem ends_run {args : List String} {inv : Invocation} (hparse : parse {} args = .ok inv)
    (hinput : inv.input ≠ .session) (colored : Bool) (readFile : String → Except ReadError (List UInt8))
    (stdin : List UInt8) : Ends readFile (colored && !inv.noColor) inv.showCode inv.showListing inv.input
      (run colored readFile stdin args) := by
  rw [run, hparse]
  dsimp only
  cases hi : inv.input with
  | session => exact absurd hi hinput
  | file path => exact ends_evaluateFile readFile _ inv path
  | expression source => exact ends_evaluate .expression _ inv

theorem Ends.exitCode_cases {color showCode showListing : Bool} {outcome : Outcome}
    (h : Ends readFile color showCode showListing input outcome) :
    outcome.exitCode = 0 ∧ outcome.stderr = "" ∨
      (outcome.exitCode = 65 ∨ outcome.exitCode = 74) ∧ outcome.stdout = "" := by
  cases h with
  | value => exact .inl ⟨rfl, rfl⟩
  | badSource => exact .inr ⟨.inl rfl, rfl⟩
  | unreadable => exact .inr ⟨.inr rfl, rfl⟩

theorem input_after (words : List Word) :
    (Invocation.after {} words).input = (inputs words).getLast?.getD .session := by
  rw [Invocation.after, Invocation.select, List.getLastD_eq_getLast?]

theorem ends_run_of_spells {words : List Word} {args : List String} (h : Spells words args)
    (hfile : ∀ path, .file path ∉ (inputs words).tail) (hlast : (inputs words).getLast? = some input)
    (hinput : input ≠ .session) (colored : Bool) (readFile : String → Except ReadError (List UInt8))
    (stdin : List UInt8) : Ends readFile (colored && !(flags words).contains "--no-color")
      ((flags words).contains "--bytecode") ((flags words).contains "--disassemble") input
      (run colored readFile stdin args) := by
  have hafter : (Invocation.after {} words).input = input := by rw [input_after, hlast, Option.getD_some]
  have hends := ends_run (parse_of_accepted h hfile) (by rwa [hafter]) colored readFile stdin
  rwa [hafter] at hends

end Inputs

end StackCalc.CommandLine
