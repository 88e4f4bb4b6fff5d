import StackCalc.Repl
import StackCalc.Text.Lines

/-!
# Sessions

A session writes a banner and then, for each line of its input, a prompt and the reply. It ends at
an exit command, at the end of the input, or at a line that is not text.
-/

namespace StackCalc

def version : String := "0.1.0"

def errorLabel (color : Bool) : String := if color then "\x1b[1;31merror:\x1b[0m" else "error:"

def diagnostic (color : Bool) (text : String) : String := errorLabel color ++ " " ++ text ++ "\n"

namespace Session

def banner : String :=
  "calcvm " ++ version ++ " - expression REPL\nType .help for available commands.\n\n"

def prompt : String := "> "

inductive Turn where
  | next (output : String) (repl : Repl)
  | exit
  | unreadable

def turn (color : Bool) (r : Repl) (line : List UInt8) : Turn :=
  match Text.decode? line with
  | none => .unreadable
  | some line =>
    match r.reply line with
    | (.empty, r) => .next "" r
    | (.text s, r) => .next (s ++ "\n") r
    | (.failure e, r) => .next (diagnostic color e.message) r
    | (.exit, _) => .exit

def transcript (color : Bool) (r : Repl) : List (List UInt8) → String × Except ReadError Unit
  | [] => (prompt ++ "\n", .ok ())
  | line :: lines =>
    match turn color r line with
    | .next output r =>
      let (rest, result) := transcript color r lines
      (prompt ++ output ++ rest, result)
    | .exit => (prompt, .ok ())
    | .unreadable => (prompt, .error .invalidText)

def run (color : Bool) (r : Repl) (input : List UInt8) : String × Except ReadError Unit :=
  let (output, result) := transcript color r (Text.splitLines input)
  (banner ++ output, result)

end Session

end StackCalc
