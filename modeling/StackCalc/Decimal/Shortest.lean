import StackCalc.Decimal.Basic

/-!
# The shortest decimal of a cell

Of the decimals that stand for a cell, the one with fewest digits, and of those the nearest to the
cell. Each grid of decimals is tried at the cell's two neighbours on it, the coarsest grid first;
the search ends at the latest at the decimal that equals the cell.
-/

namespace StackCalc.Decimal

def ofBinary (m : Nat) (e : Int) : Decimal :=
  ⟨(m <<< e.toNat) * Nat.pow 5 (-e).toNat, -(-e).toNat⟩

def below (d : Decimal) (drop : Nat) : Decimal := ⟨d.digits / tenTo drop, d.exponent + drop⟩

def above (d : Decimal) (drop : Nat) : Decimal := ⟨d.digits / tenTo drop + 1, d.exponent + drop⟩

/-- A tie between the two neighbours goes up. -/
def nearer (d : Decimal) (drop : Nat) : Decimal :=
  if 2 * (d.digits % tenTo drop) < tenTo drop then d.below drop else d.above drop

/-- The coarsest decimal near `d`, of those that drop at most `drop` digits, that stands for `x`. -/
def coarsest (x : Cell) (d : Decimal) : Nat → Decimal
  | 0 => d
  | drop + 1 =>
    match decide ((d.below (drop + 1)).toCell = x), decide ((d.above (drop + 1)).toCell = x) with
    | true, true => d.nearer (drop + 1)
    | true, false => d.below (drop + 1)
    | false, true => d.above (drop + 1)
    | false, false => coarsest x d drop

def shortest (x : Cell) : Decimal :=
  let d := ofBinary x.significand x.exponent
  coarsest x d (Nat.toDigits 10 d.digits).length

end StackCalc.Decimal
