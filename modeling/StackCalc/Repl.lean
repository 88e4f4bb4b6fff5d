import StackCalc.Program
import StackCalc.Text.Blank

/-!
# Replies to lines

An interactive evaluator takes one line at a time. A line is a command, nothing, or an expression;
what it keeps between lines is the machine and two switches.
-/

namespace StackCalc

structure Repl where
  machine : Machine := {}
  showCode : Bool := false
  showListing : Bool := false

inductive Reply where
  | empty
  | text (s : String)
  | failure (cause : Failure)
  | exit

namespace Repl

def help : String :=
  ".bytecode     toggle printing of bytecode cells\n" ++
  ".disassemble  toggle printing of the disassembly\n" ++
  ".exit         leave the REPL"

def onOff (b : Bool) : String := if b then "on" else "off"

def evaluate (r : Repl) (source : String) : Reply × Repl :=
  match compile source with
  | .error e => (.failure e, r)
  | .ok chunk =>
    match r.machine.execute chunk.code.toList with
    | (.error e, machine) => (.failure (.runtime e), { r with machine })
    | (.ok x, machine) =>
      (.text (chunk.report r.showCode r.showListing ++ x.display), { r with machine })

def reply (r : Repl) (line : String) : Reply × Repl :=
  match Text.trim line with
  | "" => (.empty, r)
  | "exit" | ".exit" | "quit" | ".quit" => (.exit, r)
  | ".help" => (.text help, r)
  | ".bytecode" => (.text ("bytecode: " ++ onOff !r.showCode), { r with showCode := !r.showCode })
  | ".disassemble" =>
    (.text ("disassemble: " ++ onOff !r.showListing), { r with showListing := !r.showListing })
  | source => r.evaluate source

end Repl

end StackCalc
