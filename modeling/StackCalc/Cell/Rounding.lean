import StackCalc.Cell.Basic

/-!
# Rounding a fraction to a cell

`Cell.nearest a b` is the cell nearest to `a / b`, a tie going to the even significand. The
fraction is exact until its one rounding.
-/

namespace StackCalc.Cell

def roundHalfEven (a b : Nat) : Nat :=
  if 2 * (a % b) < b ∨ 2 * (a % b) = b ∧ a / b % 2 = 0 then a / b else a / b + 1

def floorLog2 (a b : Nat) : Int :=
  let e : Int := a.log2 - b.log2
  if b <<< e.toNat ≤ a <<< (-e).toNat then e else e - 1

def lastPlace (a b : Nat) : Int := max (floorLog2 a b - 52) (-1074)

/-- A significand that rounds up to twice the leading bit carries into the exponent by the sum, and
a sum beyond the largest finite cell is infinite. -/
def nearest (a b : Nat) : Cell :=
  if a = 0 then zero
  else
    let e := lastPlace a b
    let m := roundHalfEven (a <<< (-e).toNat) (b <<< e.toNat)
    ⟨.ofNat (min ((e + 1074).toNat * leadingBit + m) infinityBits)⟩

def ofNat (n : Nat) : Cell := nearest n 1

def ofBinary (m : Nat) (e : Int) : Cell := nearest (m <<< e.toNat) (1 <<< (-e).toNat)

end StackCalc.Cell
