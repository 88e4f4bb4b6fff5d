import StackCalc.Chunk
import StackCalc.Decimal.Numeral
import StackCalc.Error

/-!
# Compiling tokens

An operator-precedence parser that writes code while it reads: an operand is followed by operators
that bind at least as tightly as asked for, each with a right operand of its own. The code is in
postfix order and no tree is built.

`limit` bounds how many expressions may be open at once; `none` sets no bound.
-/

namespace StackCalc

/-- The tokens that have not been read, the number of expressions that are open, and the code that
has been written. -/
structure Parser where
  rest : List Token
  depth : Nat := 0
  chunk : Chunk := {}

namespace Parser

def enter (p : Parser) : Parser := { p with depth := p.depth + 1 }

def leave (p : Parser) : Parser := { p with depth := p.depth - 1 }

def skip (p : Parser) : Parser := { p with rest := p.rest.tail }

def write (p : Parser) (op : Opcode) (line : Nat) : Parser := { p with chunk := p.chunk.push op line }

def writeNumber (p : Parser) (x : Cell) (line : Nat) : Parser :=
  { p with chunk := p.chunk.pushNumber x line }

@[simp] theorem rest_enter (p : Parser) : p.enter.rest = p.rest := rfl

@[simp] theorem depth_enter (p : Parser) : p.enter.depth = p.depth + 1 := rfl

@[simp] theorem chunk_enter (p : Parser) : p.enter.chunk = p.chunk := rfl

@[simp] theorem rest_leave (p : Parser) : p.leave.rest = p.rest := rfl

@[simp] theorem depth_leave (p : Parser) : p.leave.depth = p.depth - 1 := rfl

@[simp] theorem chunk_leave (p : Parser) : p.leave.chunk = p.chunk := rfl

@[simp] theorem depth_skip (p : Parser) : p.skip.depth = p.depth := rfl

@[simp] theorem chunk_skip (p : Parser) : p.skip.chunk = p.chunk := rfl

@[simp] theorem rest_write (p : Parser) (op : Opcode) (line : Nat) : (p.write op line).rest = p.rest := rfl

@[simp] theorem depth_write (p : Parser) (op : Opcode) (line : Nat) : (p.write op line).depth = p.depth := rfl

@[simp] theorem chunk_write (p : Parser) (op : Opcode) (line : Nat) :
    (p.write op line).chunk = p.chunk.push op line := rfl

/-- How reading from `p` on ends, well or not: at a parser that has not gone back. -/
structure Reading (p : Parser) where
  result : Except Failure Unit
  parser : Parser
  forward : parser.rest.length ≤ p.rest.length

def done (p : Parser) : Reading p := ⟨.ok (), p, Nat.le_refl _⟩

def fail (p : Parser) (e : Failure) : Reading p := ⟨.error e, p, Nat.le_refl _⟩

namespace Reading

variable {p q : Parser}

def since (r : Reading q) (h : q.rest.length ≤ p.rest.length) : Reading p :=
  ⟨r.result, r.parser, Nat.le_trans r.forward h⟩

def andThen (r : Reading p) (next : (q : Parser) → q.rest.length ≤ p.rest.length → Reading q) : Reading p :=
  match r.result with
  | .ok () => (next r.parser r.forward).since r.forward
  | .error e => ⟨.error e, r.parser, r.forward⟩

def leave (r : Reading p.enter) : Reading p := ⟨r.result, r.parser.leave, r.forward⟩

end Reading

theorem skip_length_le (p : Parser) : p.skip.rest.length ≤ p.rest.length := by
  simp [skip]

theorem skip_length_lt {p : Parser} {t : Token} (h : p.rest.head? = some t) :
    p.skip.rest.length < p.rest.length := by
  obtain ⟨ts, hts⟩ := List.head?_eq_some_iff.mp h
  simp [skip, hts]

end Parser

namespace Compiler

open StackCalc.Parser (Reading)

/-- How deep expressions may be nested: groups, negations and right operands each open one. -/
def maxDepth : Nat := 256

def endOfInput : String := "end of input"

variable (limit : Option Nat) (lastLine : Nat)

def nextLine (ts : List Token) : Nat := (ts.head?.map Token.line).getD lastLine

def found (ts : List Token) : String := (ts.head?.map Token.lexeme).getD endOfInput

def expressionExpected (ts : List Token) : Failure :=
  .parse (.expressionExpected (found ts) (nextLine lastLine ts))

def unclosedGroup (ts : List Token) : Failure :=
  .parse (.unclosedGroup (found ts) (nextLine lastLine ts))

def number (t : Token) (p : Parser) : Reading p :=
  match Numeral.read? t.lexeme with
  | none => p.fail (.parse (.invalidNumber t.lexeme t.line))
  | some x => ⟨.ok (), p.writeNumber x t.line, Nat.le_refl _⟩

def closeGroup (p : Parser) : Reading p :=
  if p.rest.head?.any (·.kind = .rightParen) then p.skip.done.since p.skip_length_le
  else (p.skip.fail (unclosedGroup lastLine p.rest)).since p.skip_length_le

/-- A minus sign is the only sign that has an opcode. -/
def writeSign (t : Token) (p : Parser) : Reading p :=
  match t.kind with
  | .minus => ⟨.ok (), p.write .negate t.line, Nat.le_refl _⟩
  | k => p.fail (.runtime (.unmappedOperator k))

def writeOperator (t : Token) (p : Parser) : Reading p :=
  match t.kind.operator? with
  | some op => ⟨.ok (), p.write (.operate op) t.line, Nat.le_refl _⟩
  | none => p.fail (.runtime (.unmappedOperator t.kind))

mutual

/-- An expression whose operators bind at least as tightly as `least`. -/
def expression (least : Precedence) (p : Parser) : Reading p :=
  if limit.any (· ≤ p.depth) then p.fail (.parse (.tooDeep (nextLine lastLine p.rest)))
  else ((operand p.enter).andThen fun q _ => operators least q).leave
termination_by 3 * p.rest.length + 2
decreasing_by
  · simp
  · rename_i h
    rw [Parser.rest_enter] at h
    omega

def operand (p : Parser) : Reading p :=
  match _h : p.rest.head? with
  | none => (p.skip.fail (expressionExpected lastLine p.rest)).since p.skip_length_le
  | some t =>
    let reading : Reading p.skip :=
      match t.kind.rule.opening? with
      | none => p.skip.fail (expressionExpected lastLine p.rest)
      | some .number => number t p.skip
      | some .group => (expression .unit p.skip).andThen fun q _ => closeGroup lastLine q
      | some .negation => (expression .unary p.skip).andThen fun q _ => writeSign t q
    reading.since p.skip_length_le
termination_by 3 * p.rest.length + 1
decreasing_by
  all_goals
    have := Parser.skip_length_lt _h
    omega

def operators (least : Precedence) (p : Parser) : Reading p :=
  match _h : p.rest.head? with
  | none => p.done
  | some t =>
    let rule := t.kind.rule
    if rule.precedence = .none ∨ ¬least ≤ rule.precedence then p.done
    else
      let reading : Reading p.skip :=
        if rule.joins then
          (expression t.kind.rightPrecedence p.skip).andThen fun q _ =>
            (writeOperator t q).andThen fun q _ => operators least q
        else p.skip.fail (.parse (.operatorExpected t.lexeme t.line))
      reading.since p.skip_length_le
termination_by 3 * p.rest.length
decreasing_by
  all_goals
    have := Parser.skip_length_lt _h
    omega

end

def lastLineOf (ts : List Token) : Nat := (ts.getLast?.map Token.line).getD 1

/-- The code of the expression at the front of `ts`. Tokens after the expression are not looked at,
but the final halt is on the line of the last of all tokens. -/
def compileWithin (ts : List Token) : Except Failure Chunk :=
  let reading := expression limit (lastLineOf ts) .unit { rest := ts }
  match reading.result with
  | .error e => .error e
  | .ok () => .ok (reading.parser.chunk.push .halt (lastLineOf ts))

def compile (ts : List Token) : Except Failure Chunk := compileWithin (some maxDepth) ts

end Compiler

end StackCalc
