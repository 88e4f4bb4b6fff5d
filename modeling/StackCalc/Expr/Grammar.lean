import StackCalc.Decimal.Numeral
import StackCalc.Expr.Basic

/-!
# The grammar

Which trees are expressions, without any talk of precedence: sums of products of powers of
operands. Sums and products group to the left, powers to the right.
-/

namespace StackCalc

inductive Phrase where
  | sum | product | power | operand
deriving DecidableEq, Repr

inductive Expr.Derives : Phrase → Expr → Prop where
  | number {m : Mark} {x : Cell} : Numeral.read? m.lexeme = some x → Derives .operand (.number m x)
  | group {opening closing : Mark} {e : Expr} :
    Derives .sum e → Derives .operand (.group opening e closing)
  | negation {m : Mark} {e : Expr} : Derives .operand e → Derives .operand (.negation m e)
  | operand {e : Expr} : Derives .operand e → Derives .power e
  | power {m : Mark} {l r : Expr} :
    Derives .operand l → Derives .power r → Derives .power (.binary .exponentiate m l r)
  | factor {e : Expr} : Derives .power e → Derives .product e
  | product {op : Operator} {m : Mark} {l r : Expr} : op = .multiply ∨ op = .divide ∨ op = .modulo →
    Derives .product l → Derives .power r → Derives .product (.binary op m l r)
  | term {e : Expr} : Derives .product e → Derives .sum e
  | sum {op : Operator} {m : Mark} {l r : Expr} : op = .sum ∨ op = .subtract →
    Derives .sum l → Derives .product r → Derives .sum (.binary op m l r)

end StackCalc
