import StackCalc.Cell.Rounding

/-!
# Arithmetic on cells

The four operations of IEEE arithmetic, remainder and power, the order of numbers, and the parts of
a number on both sides of its point.
-/

namespace StackCalc.Cell

instance : Add Cell := ⟨fun x y => .ofFloat (x.toFloat + y.toFloat)⟩

instance : Sub Cell := ⟨fun x y => .ofFloat (x.toFloat - y.toFloat)⟩

instance : Mul Cell := ⟨fun x y => .ofFloat (x.toFloat * y.toFloat)⟩

instance : Div Cell := ⟨fun x y => .ofFloat (x.toFloat / y.toFloat)⟩

/-- What is left of `x` after whole multiples of `y`, with the sign of `x`. It is exact: both are
whole multiples of the smaller of their last places. -/
def remainder (x y : Cell) : Cell :=
  if x.isNaN || x.isInf || y.isNaN || y.isZero then nan
  else if y.isInf then x
  else
    let e := min (exponent x) (exponent y)
    withSign (isNegative x) <| ofBinary
      ((significand x <<< (exponent x - e).toNat) % (significand y <<< (exponent y - e).toNat)) e

/-- A base of magnitude one has no power at an infinite exponent. The zeroth power of a NaN and a
power of one at a NaN are one, but only if the NaN is quiet. -/
def power (base exponent : Cell) : Cell :=
  if base.abs = one ∧ exponent.isInf ∨ base.isSignaling ∨ exponent.isSignaling then nan
  else .ofFloat (base.toFloat.pow exponent.toFloat)

/-- Nothing is less than or equal to a NaN, and a NaN to nothing. -/
instance : LE Cell := ⟨fun x y => x.toFloat ≤ y.toFloat⟩

instance (x y : Cell) : Decidable (x ≤ y) := inferInstanceAs (Decidable (x.toFloat ≤ y.toFloat))

/-- The number without the places behind its point. Its sign stays, on a zero too, and an infinity
or a NaN is left as it is. -/
def trunc (x : Cell) : Cell :=
  if 0 ≤ exponent x then x else withSign (isNegative x) (ofNat (wholePart x))

/-- The places behind the point. An infinity has none that are a number. -/
def fract (x : Cell) : Cell := x - trunc x

/-- The byte nearest to the truncated number; zero for a NaN. -/
def toUInt8 (x : Cell) : UInt8 := x.toFloat.toUInt8

end StackCalc.Cell
