import StackCalc.Chunk

/-!
# Expression trees

What the tokens of an expression mean: the tokens of a tree, its value, its postfix code with the
line of each cell, and how deep it nests. A parenthesis is kept in the tree but has no code.
-/

namespace StackCalc

structure Mark where
  lexeme : String
  line : Nat
deriving DecidableEq, Repr

def Mark.token (m : Mark) (kind : Kind) : Token := ⟨kind, m.lexeme, m.line⟩

def Operator.kind : Operator → Kind
  | sum => .plus
  | subtract => .minus
  | multiply => .star
  | divide => .slash
  | modulo => .percent
  | exponentiate => .starStar

@[simp] theorem Operator.operator?_kind (op : Operator) : op.kind.operator? = some op := by
  cases op <;> rfl

inductive Expr where
  | number (mark : Mark) (value : Cell)
  | group (opening : Mark) (inner : Expr) (closing : Mark)
  | negation (mark : Mark) (operand : Expr)
  | binary (op : Operator) (mark : Mark) (left right : Expr)

namespace Expr

def tokens : Expr → List Token
  | number m _ => [m.token .number]
  | group opening e closing => opening.token .leftParen :: (e.tokens ++ [closing.token .rightParen])
  | negation m e => m.token .minus :: e.tokens
  | binary op m l r => l.tokens ++ m.token op.kind :: r.tokens

def value : Expr → Cell
  | number _ x => x
  | group _ e _ => e.value
  | negation _ e => -e.value
  | binary op _ l r => op.apply l.value r.value

/-- How many expressions are open at once while the tree is read: an operand in front of or behind
an operator is read within the one before it, a left operand is not. -/
def need : Expr → Nat
  | number _ _ => 1
  | group _ e _ => 1 + e.need
  | negation _ e => 1 + e.need
  | binary _ _ l r => max l.need (1 + r.need)

def cells : Expr → List (Cell × Nat)
  | number m x => [(Opcode.pushNumber.cell, m.line), (x, m.line)]
  | group _ e _ => e.cells
  | negation m e => e.cells ++ [(Opcode.negate.cell, m.line)]
  | binary op m l r => l.cells ++ r.cells ++ [((Opcode.operate op).cell, m.line)]

def code (e : Expr) : List Cell := e.cells.map Prod.fst

@[simp] theorem code_number (m : Mark) (x : Cell) : (number m x).code = [Opcode.pushNumber.cell, x] := rfl

@[simp] theorem code_group (opening closing : Mark) (e : Expr) : (group opening e closing).code = e.code := rfl

@[simp] theorem code_negation (m : Mark) (e : Expr) :
    (negation m e).code = e.code ++ [Opcode.negate.cell] := List.map_append ..

@[simp] theorem code_binary (op : Operator) (m : Mark) (l r : Expr) :
    (binary op m l r).code = l.code ++ r.code ++ [(Opcode.operate op).cell] := by
  simp [code, cells]

end Expr

end StackCalc
