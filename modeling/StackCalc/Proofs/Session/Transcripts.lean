import Mathlib.Control.Monad.Basic
import StackCalc.Proofs.Replies
import StackCalc.Proofs.Session.Lines
import StackCalc.Session

/-!
# What a session writes

A session writes a prompt and a reply for each line, up to the first that asks to leave it or is no text. The rest
of the input is not looked at.
-/

namespace StackCalc

def Reply.written (color : Bool) : Reply → String
  | empty | exit => ""
  | text s => s ++ "\n"
  | failure cause => diagnostic color cause.message

namespace Session

variable {color : Bool} {r : Repl} {line : List UInt8} {lines : List (List UInt8)} {text : String}

def turns (color : Bool) (replies : List Reply) : String :=
  String.join (replies.map fun reply => prompt ++ reply.written color)

/-- What is written behind the banner, and how the session ends: at a reply that leaves it, where the lines end,
or at a line that is not text. Here `texts` are the lines that have been read, and `later` are those behind them. -/
inductive Ends (color : Bool) (r : Repl) (lines : List (List UInt8)) : String × Except ReadError Unit → Prop where
  | exit {texts : List String} {later : List (Option String)} {replies : List Reply} :
    lines.map Text.decode? = texts.map some ++ later → r.replies texts = replies ++ [.exit] → .exit ∉ replies →
    Ends color r lines (turns color (r.replies texts), .ok ())
  | endOfInput {texts : List String} : lines.map Text.decode? = texts.map some → .exit ∉ r.replies texts →
    Ends color r lines (turns color (r.replies texts) ++ (prompt ++ "\n"), .ok ())
  | unreadable {texts : List String} {later : List (Option String)} :
    lines.map Text.decode? = texts.map some ++ none :: later → .exit ∉ r.replies texts →
    Ends color r lines (turns color (r.replies texts) ++ prompt, .error .invalidText)

section Turns

theorem turn_of_exit (h : Text.decode? line = some text) (hreply : (r.reply text).1 = .exit) :
    turn color r line = .exit := by
  rw [turn, h]
  dsimp only
  generalize r.reply text = answer at hreply
  obtain ⟨reply, r'⟩ := answer
  cases hreply
  rfl

theorem turn_of_reply (h : Text.decode? line = some text) (hreply : (r.reply text).1 ≠ .exit) :
    turn color r line = .next ((r.reply text).1.written color) (r.reply text).2 := by
  rw [turn, h]
  dsimp only
  generalize r.reply text = answer at hreply
  obtain ⟨reply, r'⟩ := answer
  cases reply with
  | exit => exact absurd rfl hreply
  | _ => rfl

theorem transcript_of_exit (h : Text.decode? line = some text) (hreply : (r.reply text).1 = .exit) :
    transcript color r (line :: lines) = (prompt, .ok ()) := by
  rw [transcript, turn_of_exit h hreply]

theorem transcript_of_reply (h : Text.decode? line = some text) (hreply : (r.reply text).1 ≠ .exit) :
    transcript color r (line :: lines) = (prompt ++ (r.reply text).1.written color ++
      (transcript color (r.reply text).2 lines).1, (transcript color (r.reply text).2 lines).2) := by
  rw [transcript, turn_of_reply h hreply]

theorem transcript_of_unreadable (h : Text.decode? line = none) :
    transcript color r (line :: lines) = (prompt, .error .invalidText) := by
  rw [transcript, turn, h]

end Turns

section Lines

theorem map_decode?_cons {texts : List String} {later : List (Option String)} (h : Text.decode? line = some text)
    (hlines : lines.map Text.decode? = texts.map some ++ later) :
    (line :: lines).map Text.decode? = (text :: texts).map some ++ later := by
  rw [List.map_cons, h, hlines]
  rfl

theorem turns_replies_cons (color : Bool) (r : Repl) (text : String) (texts : List String) :
    turns color (r.replies (text :: texts)) =
      prompt ++ (r.reply text).1.written color ++ turns color ((r.reply text).2.replies texts) := by
  simp [turns, Repl.replies]

theorem exit_notMem_replies_cons {texts : List String} (hreply : (r.reply text).1 ≠ .exit)
    (hexit : .exit ∉ (r.reply text).2.replies texts) : .exit ∉ r.replies (text :: texts) :=
  List.not_mem_cons_of_ne_of_not_mem hreply.symm hexit

theorem Ends.cons {ended : String × Except ReadError Unit} (h : Text.decode? line = some text)
    (hreply : (r.reply text).1 ≠ .exit) (hends : Ends color (r.reply text).2 lines ended) :
    Ends color r (line :: lines) (prompt ++ (r.reply text).1.written color ++ ended.1, ended.2) := by
  cases hends with
  | exit hlines hreplies hexit =>
    rw [← turns_replies_cons]
    apply Ends.exit (map_decode?_cons h hlines)
    · rw [Repl.replies, hreplies, ← List.cons_append]
    · exact List.not_mem_cons_of_ne_of_not_mem hreply.symm hexit
  | endOfInput hlines hexit =>
    rw [← String.append_assoc, ← turns_replies_cons]
    rw [← List.append_nil (List.map some _)] at hlines
    refine .endOfInput ?_ (exit_notMem_replies_cons hreply hexit)
    rw [map_decode?_cons h hlines, List.append_nil]
  | unreadable hlines hexit =>
    rw [← String.append_assoc, ← turns_replies_cons]
    exact .unreadable (map_decode?_cons h hlines) (exit_notMem_replies_cons hreply hexit)

theorem ends_transcript (color : Bool) (r : Repl) (lines : List (List UInt8)) :
    Ends color r lines (transcript color r lines) := by
  induction lines generalizing r with
  | nil => exact @Ends.endOfInput _ _ _ [] rfl (by simp [Repl.replies])
  | cons line lines ih =>
    cases h : Text.decode? line with
    | none =>
      rw [transcript_of_unreadable h]
      exact @Ends.unreadable _ _ _ [] _ (by rw [List.map_cons, h]; rfl) (by simp [Repl.replies])
    | some text =>
      by_cases hreply : (r.reply text).1 = .exit
      · rw [transcript_of_exit h hreply]
        have hreplies : r.replies [text] = [.exit] := by rw [Repl.replies, hreply]; rfl
        have hwritten : turns color (r.replies [text]) = prompt := by rw [hreplies]; rfl
        rw [← hwritten]
        exact @Ends.exit _ _ _ [text] _ [] (by rw [List.map_cons, h]; rfl) hreplies (by simp)
      · rw [transcript_of_reply h hreply]
        exact (ih (r.reply text).2).cons h hreply

theorem transcript_append {texts : List String} {later : List (Option String)}
    (hlines : lines.map Text.decode? = texts.map some ++ later) (hexit : .exit ∈ r.replies texts)
    (more : List (List UInt8)) : transcript color r (lines ++ more) = transcript color r lines := by
  induction lines generalizing r texts with
  | nil =>
    cases texts with
    | nil => cases hexit
    | cons => cases hlines
  | cons line lines ih =>
    cases texts with
    | nil => cases hexit
    | cons text texts =>
      obtain ⟨h, hlines⟩ := List.cons.inj hlines
      rw [List.cons_append]
      by_cases hreply : (r.reply text).1 = .exit
      · rw [transcript_of_exit h hreply, transcript_of_exit h hreply]
      · have hlater : .exit ∈ (r.reply text).2.replies texts :=
          (List.mem_cons.mp hexit).resolve_left (Ne.symm hreply)
        rw [transcript_of_reply h hreply, transcript_of_reply h hreply, ih hlines hlater]

end Lines

theorem run_eq (color : Bool) (r : Repl) (input : List UInt8) : run color r input =
    (banner ++ (transcript color r (Text.splitLines input)).1, (transcript color r (Text.splitLines input)).2) := rfl

theorem run_transcribes (color : Bool) (r : Repl) :
    (∀ input, ∃ lines output result, (∀ lines', Text.Lines input lines' ↔ lines' = lines) ∧
      Ends color r lines (output, result) ∧ run color r input = (banner ++ output, result)) ∧
    ∀ before lines texts later, Text.Lines before lines → (∀ b ∈ before.getLast?, b = Text.lineFeed) →
      lines.map Text.decode? = texts.map some ++ later → .exit ∈ r.replies texts →
        ∀ after, run color r (before ++ after) = run color r before := by
  constructor
  · intro input
    exact ⟨_, _, _, fun _ => Text.lines_iff, ends_transcript color r (Text.splitLines input), run_eq color r input⟩
  · intro before lines texts later hbefore hlast hlines hexit after
    obtain rfl := Text.lines_iff.mp hbefore
    rw [run_eq, run_eq, Text.splitLines_append hlast, transcript_append hlines hexit]

/-- Behind the line that leaves, a byte that is no text. -/
theorem run_transcribes_exit :
    let before : List UInt8 := [0x31, 0x0a, 0x20, 0x71, 0x75, 0x69, 0x74, 0x0d, 0x0a]
    let lines : List (List UInt8) := [[0x31], [0x20, 0x71, 0x75, 0x69, 0x74]]
    let texts := ["1", " quit"]
    Text.Lines before lines ∧ (∀ b ∈ before.getLast?, b = Text.lineFeed) ∧
      lines.map Text.decode? = texts.map some ++ [] ∧ .exit ∈ Repl.replies {} texts ∧
      run false {} (before ++ [0xff, 0x0a]) = (banner ++ "> 1\n> ", .ok ()) := by
  intro before lines texts
  have hbefore : Text.Lines before lines := by
    rw [Text.lines_iff]
    decide +kernel
  have hlast : ∀ b ∈ before.getLast?, b = Text.lineFeed := by
    rintro b ⟨⟩
    rfl
  have hlines : lines.map Text.decode? = texts.map some ++ [] := by decide +kernel
  have hquit (r : Repl) : (r.reply " quit").1 = .exit := by
    have htrim : Text.trim " quit" = "quit" := by decide +kernel
    rw [Repl.reply, htrim]
    rfl
  have hexit : .exit ∈ Repl.replies {} texts := List.mem_cons_of_mem _ (by simp [Repl.replies, hquit])
  refine ⟨hbefore, hlast, hlines, hexit, ?_⟩
  rw [(run_transcribes false {}).2 before lines texts [] hbefore hlast hlines hexit]
  decide +kernel

end Session

end StackCalc
