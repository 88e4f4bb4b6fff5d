import StackCalc.Compiler
import StackCalc.Listing
import StackCalc.Machine
import StackCalc.Token.Scanner

namespace StackCalc

def compile (source : String) : Except Failure Chunk :=
  match tokenize source with
  | .error e => .error (.lex e)
  | .ok tokens => Compiler.compile tokens

def evaluate (source : String) : Except Failure Cell :=
  match compile source with
  | .error e => .error e
  | .ok chunk => (execute chunk.code.toList).mapError .runtime

def Chunk.report (c : Chunk) (showCode showListing : Bool) : String :=
  (if showCode then Cell.dumpAll c.code.toList ++ "\n" else "") ++
    if showListing then c.listing else ""

end StackCalc
