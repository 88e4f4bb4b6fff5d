import StackCalc.Cell.Arithmetic
import StackCalc.Token.Kind

/-!
# Operators and how tightly they bind

Which kinds of token begin an operand, which stand between two operands, and how strongly the
latter bind. `**` groups to the right, the other operators to the left, and a minus sign in front
binds tighter than all of them.
-/

namespace StackCalc

inductive Precedence where
  | none | unit | term | factor | exponentiation | unary
deriving DecidableEq, Repr

namespace Precedence

def level : Precedence → Nat
  | none => 0
  | unit => 1
  | term => 2
  | factor => 3
  | exponentiation => 4
  | unary => 5

instance : LE Precedence := ⟨fun p q => p.level ≤ q.level⟩

instance (p q : Precedence) : Decidable (p ≤ q) := inferInstanceAs (Decidable (p.level ≤ q.level))

instance : Ord Precedence := ⟨fun p q => compare p.level q.level⟩

def next : Precedence → Precedence
  | none => unit
  | unit => term
  | term => factor
  | factor => exponentiation
  | exponentiation => unary
  | unary => unary

end Precedence

inductive Operator where
  | sum | subtract | multiply | divide | modulo | exponentiate
deriving DecidableEq, Repr

namespace Operator

def apply : Operator → Cell → Cell → Cell
  | sum, x, y => x + y
  | subtract, x, y => x - y
  | multiply, x, y => x * y
  | divide, x, y => x / y
  | modulo, x, y => Cell.remainder x y
  | exponentiate, x, y => Cell.power x y

end Operator

inductive Opening where
  | number | group | negation
deriving DecidableEq, Repr

/-- What a token does where an operand is due and where one has just been read. -/
structure Rule where
  opening? : Option Opening := none
  joins : Bool := false
  precedence : Precedence := .none

namespace Kind

def rule : Kind → Rule
  | number => { opening? := some .number }
  | leftParen => { opening? := some .group }
  | minus => { opening? := some .negation, joins := true, precedence := .term }
  | plus => { joins := true, precedence := .term }
  | star | slash | percent => { joins := true, precedence := .factor }
  | starStar => { joins := true, precedence := .exponentiation }
  | rightParen | whitespace | symbol => {}

def groupsRight (k : Kind) : Bool := k = starStar

/-- The loosest operators that a right operand takes along: those of the same precedence only
where the operator groups to the right. -/
def rightPrecedence (k : Kind) : Precedence :=
  if k.groupsRight then k.rule.precedence else k.rule.precedence.next

def operator? : Kind → Option Operator
  | starStar => some .exponentiate
  | star => some .multiply
  | slash => some .divide
  | percent => some .modulo
  | plus => some .sum
  | minus => some .subtract
  | _ => none

end Kind

end StackCalc
