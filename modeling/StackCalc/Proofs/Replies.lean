import StackCalc.Proofs.Machine.Reuse
import StackCalc.Repl

/-!
# What replies depend on

A reply depends on the line and on the two switches. The lines before it count only so far as they have
flipped a switch: what they left in the machine is never seen again.
-/

namespace StackCalc.Repl

variable {r : Repl}

section Line

theorem evaluate_switches (r : Repl) (source : String) :
    (r.evaluate source).2.showCode = r.showCode ∧ (r.evaluate source).2.showListing = r.showListing := by
  unfold evaluate
  split
  · exact ⟨rfl, rfl⟩
  · split <;> exact ⟨rfl, rfl⟩

theorem evaluate_reply (r : Repl) (source : String) : (r.evaluate source).1 =
    match compile source with
    | .error e => .failure e
    | .ok chunk =>
      match execute chunk.code.toList with
      | .error e => .failure (.runtime e)
      | .ok x => .text (chunk.report r.showCode r.showListing ++ x.display) := by
  rw [evaluate]
  cases compile source with
  | error e => rfl
  | ok chunk =>
    dsimp only
    rw [← Machine.execute_result r.machine]
    generalize r.machine.execute chunk.code.toList = run
    obtain ⟨_ | _, _⟩ := run <;> rfl

theorem reply_machine (r : Repl) (m : Machine) (line : String) :
    ({ r with machine := m }.reply line).1 = (r.reply line).1 := by
  unfold reply
  split
  case h_9 => rw [evaluate_reply, evaluate_reply]
  all_goals rfl

theorem reply_switches (r : Repl) (line : String) :
    (r.reply line).2.showCode = (if Text.trim line = ".bytecode" then !r.showCode else r.showCode) ∧
      (r.reply line).2.showListing = if Text.trim line = ".disassemble" then !r.showListing else r.showListing := by
  unfold reply
  split
  case h_9 hcode hlisting =>
    rw [if_neg hcode, if_neg hlisting]
    exact evaluate_switches r _
  all_goals
    rename_i htext
    rw [htext]
    exact ⟨rfl, rfl⟩

theorem showCode_reply (r : Repl) (line : String) : (r.reply line).2.showCode =
    if Text.trim line = ".bytecode" then !r.showCode else r.showCode :=
  (reply_switches r line).1

theorem showListing_reply (r : Repl) (line : String) : (r.reply line).2.showListing =
    if Text.trim line = ".disassemble" then !r.showListing else r.showListing :=
  (reply_switches r line).2

end Line

section Lines

def replies (r : Repl) : List String → List Reply
  | [] => []
  | line :: lines => (r.reply line).1 :: (r.reply line).2.replies lines

def flipped (command : String) (lines : List String) (on : Bool) : Bool :=
  lines.foldl (fun on line => if Text.trim line = command then !on else on) on

theorem replies_congr {r' : Repl} (hcode : r.showCode = r'.showCode) (hlisting : r.showListing = r'.showListing)
    (lines : List String) : r.replies lines = r'.replies lines := by
  induction lines generalizing r r' with
  | nil => rfl
  | cons line lines ih =>
    have hreply : (r.reply line).1 = (r'.reply line).1 := by
      rw [← reply_machine r r'.machine]
      simp only [hcode, hlisting]
    rw [replies, replies, hreply]
    congr 1
    apply ih
    · rw [showCode_reply, showCode_reply, hcode]
    · rw [showListing_reply, showListing_reply, hlisting]

theorem replies_append (r : Repl) (earlier later : List String) : r.replies (earlier ++ later) = r.replies earlier ++
    (Repl.mk {} (flipped ".bytecode" earlier r.showCode) (flipped ".disassemble" earlier r.showListing)).replies
      later := by
  induction earlier generalizing r with
  | nil =>
    rw [List.nil_append, replies, List.nil_append]
    apply replies_congr
    · rfl
    · rfl
  | cons line earlier ih =>
    rw [List.cons_append, replies, ih, showCode_reply, showListing_reply]
    rfl

theorem length_replies (r : Repl) (lines : List String) : (r.replies lines).length = lines.length := by
  induction lines generalizing r with
  | nil => rfl
  | cons line lines ih => rw [replies, List.length_cons, List.length_cons, ih]

theorem replies_eq (code listing : Bool) :
    (∀ earlier line later, ((Repl.mk {} code listing).replies (earlier ++ line :: later))[earlier.length]? =
      some ((Repl.mk {} (flipped ".bytecode" earlier code) (flipped ".disassemble" earlier listing)).reply line).1) ∧
    ∀ (r : Repl) (line : String), Text.trim line ≠ ".bytecode" → Text.trim line ≠ ".disassemble" →
      ∀ later, (r.reply line).2.replies later = r.replies later := by
  constructor
  · intro earlier line later
    have hlength := length_replies (Repl.mk {} code listing) earlier
    rw [replies_append, List.getElem?_append_right (by omega), hlength, Nat.sub_self]
    rfl
  · intro r line hcode hlisting later
    apply replies_congr
    · rw [showCode_reply, if_neg hcode]
    · rw [showListing_reply, if_neg hlisting]

theorem replies_eq_switched : Text.trim "2 +" ≠ ".bytecode" ∧ Text.trim "2 +" ≠ ".disassemble" ∧
    ((Repl.mk {} false false).reply "2 +").2.replies ["-1"] = (Repl.mk {} false false).replies ["-1"] ∧
    ((Repl.mk {} false false).replies ["2 +", " .bytecode", "-1", "exit"])[2]? =
      some ((Repl.mk {} true false).reply "-1").1 := by
  obtain ⟨hplace, hother⟩ := replies_eq false false
  have hcode : Text.trim "2 +" ≠ ".bytecode" := by decide +kernel
  have hlisting : Text.trim "2 +" ≠ ".disassemble" := by decide +kernel
  have hon : flipped ".bytecode" ["2 +", " .bytecode"] false = true := by decide +kernel
  have hoff : flipped ".disassemble" ["2 +", " .bytecode"] false = false := by decide +kernel
  have hthird := hplace ["2 +", " .bytecode"] "-1" ["exit"]
  rw [hon, hoff] at hthird
  exact ⟨hcode, hlisting, hother _ _ hcode hlisting ["-1"], hthird⟩

end Lines

end StackCalc.Repl
