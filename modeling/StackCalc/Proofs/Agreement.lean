import StackCalc.Proofs.CommandLine.Arguments
import StackCalc.Proofs.Messages
import StackCalc.Proofs.Outcomes
import StackCalc.Proofs.Replies
import StackCalc.Proofs.Scanning.Trimming

/-!
# Replies and runs

A line that is no command has one result. A session replies with it, and the command line writes it when the
line is its expression.
-/

namespace StackCalc

section Result

variable {source text : String} {f : Failure}

/-- The text that a source text is answered with, or what is wrong with it. -/
def result (showCode showListing : Bool) (source : String) : Except Failure String :=
  match compile source with
  | .error e => .error e
  | .ok chunk =>
    match execute chunk.code.toList with
    | .error e => .error (.runtime e)
    | .ok x => .ok (chunk.report showCode showListing ++ x.display)

theorem result_cases (showCode showListing : Bool) (source : String) :
    (∃ chunk x, compile source = .ok chunk ∧ execute chunk.code.toList = .ok x ∧
      result showCode showListing source = .ok (chunk.report showCode showListing ++ x.display)) ∨
    ∃ f, compile source = .error f ∧ f.OfSource ∧ result showCode showListing source = .error f := by
  rw [result]
  cases hc : compile source with
  | error f => exact .inr ⟨f, rfl, ofSource_of_compile hc, rfl⟩
  | ok chunk =>
    obtain ⟨x, hx⟩ := execute_of_compile hc
    refine .inl ⟨chunk, x, rfl, hx, ?_⟩
    dsimp only
    rw [hx]

theorem ofSource_of_result {showCode showListing : Bool} (h : result showCode showListing source = .error f) :
    f.OfSource := by
  rcases result_cases showCode showListing source with ⟨_, _, -, -, hok⟩ | ⟨f', -, hf, herror⟩
  · cases h.symm.trans hok
  · cases h.symm.trans herror
    exact hf

theorem result_trim (showCode showListing : Bool) (hline : '\n' ∉ source.toList) :
    result showCode showListing (Text.trim source) = result showCode showListing source := by
  rw [result, result, compile, compile, tokenize_trim hline]

end Result

def Reply.ofResult : Except Failure String → Reply
  | .ok s => .text s
  | .error f => .failure f

def CommandLine.Outcome.ofResult (color : Bool) : Except Failure String → Outcome
  | .ok text => { stdout := text ++ "\n" }
  | .error f => { stderr := diagnostic color f.message, exitCode := exitBadSource }

section Renderings

open CommandLine (Outcome)

variable {found : Except Failure String} {text : String} {f : Failure} {color : Bool}

theorem Reply.ofResult_ne_empty (found : Except Failure String) : ofResult found ≠ .empty := by
  cases found <;> nofun

theorem Reply.ofResult_eq_text_iff : ofResult found = .text text ↔ found = .ok text := by
  cases found <;> simp [ofResult]

theorem Reply.ofResult_eq_failure_iff : ofResult found = .failure f ↔ found = .error f := by
  cases found <;> simp [ofResult]

theorem diagnostic_injective (color : Bool) : Function.Injective (diagnostic color) := by
  intro text text' h
  exact (String.append_right_inj _).mp ((String.append_left_inj _).mp h)

theorem CommandLine.Outcome.ofResult_eq_output_iff : ofResult color found = { stdout := text ++ "\n" } ↔
    found = .ok text := by
  constructor
  · intro h
    cases found with
    | ok text' => exact congrArg Except.ok ((String.append_left_inj _).mp (congrArg Outcome.stdout h))
    | error f => cases congrArg Outcome.exitCode h
  · rintro rfl
    rfl

theorem CommandLine.Outcome.ofResult_eq_diagnostic_iff (hfound : ∀ f, found = .error f → f.OfSource) :
    ofResult color found = { stderr := diagnostic color f.message, exitCode := exitBadSource } ↔
      found = .error f := by
  constructor
  · intro h
    cases found with
    | ok text => cases congrArg Outcome.exitCode h
    | error f' =>
      have hmessage : f.message = f'.message := diagnostic_injective color (congrArg Outcome.stderr h).symm
      have hf' : ∀ cause, f' ≠ .runtime cause := by
        intro cause
        cases hfound f' rfl <;> nofun
      rw [Failure.eq_of_message_eq hf' hmessage]
  · rintro rfl
    rfl

end Renderings

namespace Repl

variable {r : Repl} {line : String}

def commands : List String := ["exit", ".exit", "quit", ".quit", ".help", ".bytecode", ".disassemble"]

theorem reply_of_trim_eq_empty (h : Text.trim line = "") : (r.reply line).1 = .empty := by
  rw [reply, h]
  rfl

theorem reply_of_notMem_commands (hne : Text.trim line ≠ "") (hcommand : Text.trim line ∉ commands) :
    (r.reply line).1 = .ofResult (result r.showCode r.showListing (Text.trim line)) := by
  have hevaluate : r.reply line = r.evaluate (Text.trim line) := by
    unfold reply
    split
    case h_1 htext => exact absurd htext hne
    case h_9 => rfl
    all_goals
      rename_i htext
      rw [htext] at hcommand
      exact absurd hcommand (by decide)
  rw [hevaluate, evaluate_reply, result]
  cases compile (Text.trim line) with
  | error f => rfl
  | ok chunk =>
    dsimp only
    cases execute chunk.code.toList <;> rfl

end Repl

namespace CommandLine

variable {source : String} {flags : List String}

theorem evaluate_eq_result (color : Bool) (inv : Invocation) (source : String) :
    evaluate color inv source = .ofResult color (result inv.showCode inv.showListing source) := by
  rcases result_cases inv.showCode inv.showListing source with ⟨chunk, x, hc, hx, hresult⟩ | ⟨f, hc, hf, hresult⟩
  · rw [hresult, evaluate, hc]
    simp only [hx]
    rfl
  · rw [hresult, evaluate, hc]
    -- Each failure of a source text has the exit code of a bad source.
    cases hf <;> rfl

theorem run_append_expression (hflags : ∀ flag ∈ flags, flag ∈ switches) (colored : Bool)
    (readFile : String → Except ReadError (List UInt8)) (stdin : List UInt8) (source : String) :
    run colored readFile stdin (flags ++ ["-e", source]) =
      .ofResult (colored && !flags.contains "--no-color")
        (result (flags.contains "--bytecode") (flags.contains "--disassemble") source) := by
  have hparse : parse {} (flags ++ ["-e", source]) =
      .ok { Invocation.switch {} flags with input := .expression source } := by
    rw [parse_append_switches hflags]
    rfl
  rw [run, hparse]
  simp only [evaluate_eq_result, Invocation.switch, Bool.false_or]

end CommandLine

theorem reply_iff_run {source : String} {flags : List String} (hline : '\n' ∉ source.toList)
    (hcommand : Text.trim source ∉ Repl.commands) (hflags : ∀ flag ∈ flags, flag ∈ CommandLine.switches)
    (colored : Bool) (readFile : String → Except ReadError (List UInt8)) (stdin : List UInt8) :
    let r : Repl := ⟨{}, flags.contains "--bytecode", flags.contains "--disassemble"⟩
    let reply := (r.reply source).1
    let outcome := CommandLine.run colored readFile stdin (flags ++ ["-e", source])
    let color := colored && !flags.contains "--no-color"
    (reply = .empty ↔ tokenize source = .ok []) ∧
      (reply ≠ .empty →
        (∀ text, reply = .text text ↔ outcome = { stdout := text ++ "\n", stderr := "", exitCode := 0 }) ∧
        ∀ f, reply = .failure f ↔
          outcome = { stdout := "", stderr := diagnostic color f.message, exitCode := 65 }) ∧
      ∀ text, diagnostic false text = "error: " ++ text ++ "\n" := by
  intro r reply outcome color
  let found := result (flags.contains "--bytecode") (flags.contains "--disassemble") source
  have houtcome : outcome = .ofResult color found :=
    CommandLine.run_append_expression hflags colored readFile stdin source
  have hreply (hne : Text.trim source ≠ "") : reply = .ofResult found := by
    have hreply := Repl.reply_of_notMem_commands (r := r) hne hcommand
    rwa [result_trim _ _ hline] at hreply
  refine ⟨?_, ?_, fun text => rfl⟩
  · rw [tokenize_eq_nil_iff]
    constructor
    · intro hempty
      by_contra hne
      exact Reply.ofResult_ne_empty found ((hreply hne).symm.trans hempty)
    · exact Repl.reply_of_trim_eq_empty
  · intro hempty
    have hne : Text.trim source ≠ "" := fun h => hempty (Repl.reply_of_trim_eq_empty h)
    rw [hreply hne, houtcome]
    constructor
    · intro text
      rw [Reply.ofResult_eq_text_iff]
      exact CommandLine.Outcome.ofResult_eq_output_iff.symm
    · intro f
      rw [Reply.ofResult_eq_failure_iff]
      exact (CommandLine.Outcome.ofResult_eq_diagnostic_iff fun f => ofSource_of_result).symm

theorem reply_iff_run_unfinished : let source := "\u00a02 *\t"
    let flags := ["--bytecode"]
    let f : Failure := .parse (.expressionExpected "end of input" 1)
    '\n' ∉ source.toList ∧ Text.trim source ∉ Repl.commands ∧ (∀ flag ∈ flags, flag ∈ CommandLine.switches) ∧
      CommandLine.run false (fun _ => .error .notFound) [] (flags ++ ["-e", source]) =
        { stdout := "", stderr := diagnostic false f.message, exitCode := 65 } ∧
      ((Repl.mk {} true false).reply source).1 = .failure f := by
  intro source flags f
  have hline : '\n' ∉ source.toList := by decide +kernel
  have hcommand : Text.trim source ∉ Repl.commands := by decide +kernel
  have hflags : ∀ flag ∈ flags, flag ∈ CommandLine.switches := by decide +kernel
  have hrun : CommandLine.run false (fun _ => .error .notFound) [] (flags ++ ["-e", source]) =
      { stdout := "", stderr := diagnostic false f.message, exitCode := 65 } := by decide +kernel
  obtain ⟨hempty, hreply, -⟩ := reply_iff_run hline hcommand hflags false (fun _ => .error .notFound) []
  have htokens : tokenize source ≠ .ok [] := by decide +kernel
  have hfailure := (hreply (fun h => htokens (hempty.mp h))).2 f
  exact ⟨hline, hcommand, hflags, hrun, hfailure.mpr hrun⟩

end StackCalc
