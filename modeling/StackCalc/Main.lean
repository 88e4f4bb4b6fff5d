import StackCalc.CommandLine

/-!
# The program

The outer layer: it reads arguments, surroundings, files and input, and writes what the library
answers.
-/

namespace StackCalc.Terminal

def readFile (path : String) : IO (Except ReadError (List UInt8)) := do
  try
    return .ok (← IO.FS.readBinFile path).toList
  catch
    | .noFileOrDirectory .. => return .error .notFound
    | .inappropriateType _ 21 _ => return .error .isDirectory
    | .inappropriateType .. => return .error .notDirectory
    | .permissionDenied .. => return .error .permissionDenied
    | e => return .error (.other (toString e))

partial def readLine (input : IO.FS.Stream) (line : ByteArray) : IO ByteArray := do
  let byte ← input.read 1
  if byte.isEmpty then return line
  else if byte.toList = [Text.lineFeed] then return line ++ byte
  else readLine input (line ++ byte)

partial def interact (color : Bool) (r : Repl) : IO UInt32 := do
  let output ← IO.getStdout
  output.putStr Session.prompt
  output.flush
  match Text.splitLines (← readLine (← IO.getStdin) .empty).toList with
  | [] => output.putStr "\n"; return 0
  | line :: _ =>
    match Session.turn color r line with
    | .next text r => output.putStr text; interact color r
    | .exit => return 0
    | .unreadable =>
      IO.eprint (diagnostic color ReadError.invalidText.message)
      return CommandLine.exitUnreadable.toUInt32

def run (args : List String) : IO UInt32 := do
  let output ← IO.getStdout
  let colored := CommandLine.wantsColor (← IO.getEnv "CLICOLOR_FORCE") (← IO.getEnv "NO_COLOR")
    (← IO.getEnv "CLICOLOR") (← output.isTty)
  match CommandLine.parse {} args with
  | .ok ⟨.session, showCode, showListing, noColor⟩ =>
    output.putStr Session.banner
    interact (colored && !noColor) ⟨{}, showCode, showListing⟩
  | parsed =>
    let content ← match parsed with
      | .ok ⟨.file path, _, _, _⟩ => readFile path
      | _ => pure (.error .notFound)
    let outcome := CommandLine.run colored (fun _ => content) [] args
    output.putStr outcome.stdout
    IO.eprint outcome.stderr
    return outcome.exitCode.toUInt32

end StackCalc.Terminal

def main (args : List String) : IO UInt32 := StackCalc.Terminal.run args
