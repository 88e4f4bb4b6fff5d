import StackCalc.Cell.Text
import StackCalc.Token.Kind

/-!
# What can go wrong

One type for each stage and one for all of them. The causes carry what their messages name; the
wording is in the `message` functions alone.
-/

namespace StackCalc

inductive LexError where
  | unexpectedSymbol (lexeme : String) (line : Nat)
  | ambiguousMatch (line : Nat)
  | noMatch (offset : Nat)
deriving DecidableEq, Repr

/-- `found` is the lexeme in the way, or `end of input`. -/
inductive ParseError where
  | expressionExpected (found : String) (line : Nat)
  | unclosedGroup (found : String) (line : Nat)
  | operatorExpected (found : String) (line : Nat)
  | invalidNumber (lexeme : String) (line : Nat)
  | tooDeep (line : Nat)
deriving DecidableEq, Repr

inductive RuntimeError where
  | emptyCode
  | stackUnderflow (offset : Nat)
  | unknownOpcode (cell : Cell) (offset : Nat)
  | missingOperand (offset : Nat)
  | missingHalt
  | unmappedOperator (operator : Kind)
deriving DecidableEq, Repr

inductive Failure where
  | lex (cause : LexError)
  | parse (cause : ParseError)
  | runtime (cause : RuntimeError)
deriving DecidableEq, Repr

/-- Why a file or an input line could not be read; `other` holds the system's own text. -/
inductive ReadError where
  | notFound | isDirectory | notDirectory | permissionDenied | invalidText
  | other (text : String)
deriving DecidableEq, Repr

namespace LexError

def line? : LexError → Option Nat
  | unexpectedSymbol _ line => some line
  | ambiguousMatch line => some line
  | noMatch _ => none

def message : LexError → String
  | unexpectedSymbol lexeme line =>
    "Unexpected symbol \"" ++ lexeme ++ "\" at line " ++ toString line
  | ambiguousMatch line => "Ambiguous token match at line " ++ toString line
  | noMatch offset => "No token alternative matched at offset " ++ toString offset

end LexError

namespace ParseError

def line : ParseError → Nat
  | expressionExpected _ line => line
  | unclosedGroup _ line => line
  | operatorExpected _ line => line
  | invalidNumber _ line => line
  | tooDeep line => line

def message : ParseError → String
  | expressionExpected found line =>
    "Expression expected, found '" ++ found ++ "' at line " ++ toString line
  | unclosedGroup found line =>
    "Right parenthesis required after group, found '" ++ found ++ "' at line " ++ toString line
  | operatorExpected found line =>
    "Operator expected, found '" ++ found ++ "' at line " ++ toString line
  | invalidNumber lexeme line => "Invalid number '" ++ lexeme ++ "' at line " ++ toString line
  | tooDeep line => "Expression nested too deeply at line " ++ toString line

end ParseError

namespace RuntimeError

def message : RuntimeError → String
  | emptyCode => "Empty bytecode"
  | stackUnderflow offset => "Stack underflow at offset " ++ toString offset
  | unknownOpcode cell offset =>
    "Unknown opcode " ++ cell.display ++ " at offset " ++ toString offset
  | missingOperand offset => "Missing operand for push at offset " ++ toString offset
  | missingHalt => "Bytecode ended without halt"
  | unmappedOperator operator => "No opcode for operator '" ++ operator.display ++ "'"

end RuntimeError

namespace Failure

def line? : Failure → Option Nat
  | lex cause => cause.line?
  | parse cause => some cause.line
  | runtime _ => none

def message : Failure → String
  | lex cause => "Lex error: " ++ cause.message
  | parse cause => "Parse error: " ++ cause.message
  | runtime cause => "Runtime error: " ++ cause.message

end Failure

namespace ReadError

def message : ReadError → String
  | notFound => "No such file or directory (os error 2)"
  | isDirectory => "Is a directory (os error 21)"
  | notDirectory => "Not a directory (os error 20)"
  | permissionDenied => "Permission denied (os error 13)"
  | invalidText => "stream did not contain valid UTF-8"
  | other text => text

end ReadError

end StackCalc
