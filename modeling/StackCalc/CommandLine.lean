import StackCalc.Session

/-!
# The command line

Arguments are read from left to right. They select one input, a file, an expression or a session,
and switches; the first request for help, request for the version or misuse ends the reading.
-/

namespace StackCalc.CommandLine

inductive Argument where
  | help | version | showCode | showListing | noColor
  | expression
  | unknown (text : String)
  | file (path : String)
deriving DecidableEq, Repr

/-- A lone `-` is the name of a file. -/
def Argument.ofString (s : String) : Argument :=
  match s with
  | "--help" | "-h" => help
  | "--version" | "-V" => version
  | "--bytecode" => showCode
  | "--disassemble" => showListing
  | "--no-color" => noColor
  | "-e" => expression
  | s =>
    match s.toList with
    | '-' :: _ :: _ => unknown s
    | _ => file s

inductive Input where
  | session
  | file (path : String)
  | expression (source : String)
deriving DecidableEq, Repr

structure Invocation where
  input : Input := .session
  showCode : Bool := false
  showListing : Bool := false
  noColor : Bool := false
deriving DecidableEq, Repr

inductive Misuse where
  | missingExpression
  | unknownOption (text : String)
  | tooManyInputs
deriving DecidableEq, Repr

inductive Stop where
  | help | version
  | misuse (m : Misuse)
deriving DecidableEq, Repr

/-- An expression takes the place of an earlier input, a file is refused after one. -/
def parse (inv : Invocation) : List String → Except Stop Invocation
  | [] => .ok inv
  | arg :: args =>
    match Argument.ofString arg, args with
    | .help, _ => .error .help
    | .version, _ => .error .version
    | .showCode, args => parse { inv with showCode := true } args
    | .showListing, args => parse { inv with showListing := true } args
    | .noColor, args => parse { inv with noColor := true } args
    | .expression, [] => .error (.misuse .missingExpression)
    | .expression, source :: args => parse { inv with input := .expression source } args
    | .unknown text, _ => .error (.misuse (.unknownOption text))
    | .file path, args =>
      if inv.input = .session then parse { inv with input := .file path } args
      else .error (.misuse .tooManyInputs)

def usage : String := String.join <| List.map (· ++ "\n") [
  "Calcvm " ++ StackCalc.version ++ " - arithmetic expression compiler and VM",
  "",
  "Usage: calcvm [options] [file]",
  "       calcvm [options] -e <expression>",
  "",
  "Options:",
  "  -e <expression>  Evaluate the expression and print the result",
  "  --bytecode       Print the compiled bytecode cells",
  "  --disassemble    Print a disassembly of the compiled bytecode",
  "  --no-color       Disable colored diagnostics",
  "  --version, -V    Show the version",
  "  --help, -h       Show this help message",
  "",
  "With no file or expression, starts an interactive REPL.",
  "Set RUST_LOG=calcvm=debug to trace pipeline stages.",
  "",
  "Examples:",
  "  calcvm -e '2 ** 3 ** 2'          Evaluate an expression",
  "  calcvm --disassemble -e '1 + 2'  Show the bytecode listing",
  "  calcvm expr.txt                  Evaluate a file"]

def Misuse.message : Misuse → String
  | missingExpression => "-e requires an expression argument"
  | unknownOption text => "Unknown option: " ++ text
  | tooManyInputs => "Only one file or expression can be specified"

structure Outcome where
  stdout : String := ""
  stderr : String := ""
  exitCode : Nat := 0
deriving DecidableEq, Repr

def exitMisuse : Nat := 64

def exitBadSource : Nat := 65

def exitBadProgram : Nat := 70

def exitUnreadable : Nat := 74

def Stop.outcome : Stop → Outcome
  | help => { stderr := usage }
  | version => { stdout := "calcvm " ++ StackCalc.version ++ "\n" }
  | misuse m => { stderr := m.message ++ "\n" ++ usage, exitCode := exitMisuse }

def exitCodeOf : Failure → Nat
  | .lex _ | .parse _ => exitBadSource
  | .runtime _ => exitBadProgram

/-- What is shown of a chunk is written before the chunk is executed. -/
def evaluate (color : Bool) (inv : Invocation) (source : String) : Outcome :=
  match compile source with
  | .error e => { stderr := diagnostic color e.message, exitCode := exitCodeOf e }
  | .ok chunk =>
    let shown := chunk.report inv.showCode inv.showListing
    match execute chunk.code.toList with
    | .ok x => { stdout := shown ++ x.display ++ "\n" }
    | .error e =>
      let e := Failure.runtime e
      { stdout := shown, stderr := diagnostic color e.message, exitCode := exitCodeOf e }

def evaluateFile (color : Bool) (inv : Invocation) (path : String)
    (content : Except ReadError (List UInt8)) : Outcome :=
  let unreadable (e : ReadError) : Outcome :=
    { stderr := diagnostic color ("cannot read '" ++ path ++ "': " ++ e.message), exitCode := exitUnreadable }
  match content with
  | .error e => unreadable e
  | .ok bytes =>
    match Text.decode? bytes with
    | none => unreadable .invalidText
    | some source => evaluate color inv source

def interact (color : Bool) (inv : Invocation) (stdin : List UInt8) : Outcome :=
  match Session.run color ⟨{}, inv.showCode, inv.showListing⟩ stdin with
  | (output, .ok ()) => { stdout := output }
  | (output, .error e) =>
    { stdout := output, stderr := diagnostic color e.message, exitCode := exitUnreadable }

/-- Whether the surroundings ask for colors, from the variables `CLICOLOR_FORCE`, `NO_COLOR` and
`CLICOLOR`, of which the first that speaks decides, and from whether the output is a terminal. -/
def wantsColor (force? noColor? color? : Option String) (terminal : Bool) : Bool :=
  if force?.any (· != "0") then true
  else if noColor?.isSome then false
  else terminal && color?.all (· != "0")

/-- A whole run. `colored` says whether the surroundings ask for colors; the arguments may still
turn them off. -/
def run (colored : Bool) (readFile : String → Except ReadError (List UInt8)) (stdin : List UInt8)
    (args : List String) : Outcome :=
  match parse {} args with
  | .error stop => stop.outcome
  | .ok inv =>
    let color := colored && !inv.noColor
    match inv.input with
    | .session => interact color inv stdin
    | .file path => evaluateFile color inv path (readFile path)
    | .expression source => evaluate color inv source

end StackCalc.CommandLine
