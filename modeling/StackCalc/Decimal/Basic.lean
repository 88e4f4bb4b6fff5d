import StackCalc.Cell.Rounding

namespace StackCalc

structure Decimal where
  digits : Nat
  exponent : Int
deriving DecidableEq, Repr

namespace Decimal

def tenTo (n : Nat) : Nat := Nat.pow 10 n

/-- The two outer tests keep the powers of ten small: `10 ^ 309` exceeds every finite cell, and
below the second bound the decimal is less than half the least positive cell. -/
def toCell (d : Decimal) : Cell :=
  if d.digits = 0 then Cell.zero
  else if 308 < d.exponent then Cell.infinity
  else if d.exponent < -(324 + d.digits.log2 : Int) then Cell.zero
  else Cell.nearest (d.digits * tenTo d.exponent.toNat) (tenTo (-d.exponent).toNat)

end Decimal

end StackCalc
