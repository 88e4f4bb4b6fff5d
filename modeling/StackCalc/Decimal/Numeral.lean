import StackCalc.Decimal.Basic

/-!
# Numerals

A numeral is an optional sign and then either `inf`, `infinity` or `nan` in any case, or digits
with at most one point among them and an optional exponent. It stands for the cell nearest to what
it says.
-/

namespace StackCalc.Numeral

def value (digits : List Char) : Nat := digits.foldl (fun n c => 10 * n + (c.toNat - 48)) 0

def splitSign : List Char → Bool × List Char
  | '-' :: cs => (true, cs)
  | '+' :: cs => (false, cs)
  | cs => (false, cs)

def exponent? : List Char → Option Int
  | [] => some 0
  | e :: cs =>
    let (negative, digits) := splitSign cs
    if (e = 'e' ∨ e = 'E') ∧ digits ≠ [] ∧ digits.all Char.isDigit then
      some (if negative then -(value digits) else value digits)
    else none

def splitFraction : List Char → List Char × List Char
  | '.' :: cs => (cs.takeWhile Char.isDigit, cs.dropWhile Char.isDigit)
  | cs => ([], cs)

def decimal? (cs : List Char) : Option Decimal :=
  let whole := cs.takeWhile Char.isDigit
  let (fraction, rest) := splitFraction (cs.dropWhile Char.isDigit)
  if whole = [] ∧ fraction = [] then none
  else (exponent? rest).map fun e => ⟨value (whole ++ fraction), e - fraction.length⟩

def magnitude? (cs : List Char) : Option Cell :=
  match String.ofList (cs.map Char.toLower) with
  | "inf" | "infinity" => some Cell.infinity
  | "nan" => some Cell.nan
  | _ => (decimal? cs).map Decimal.toCell

def read? (text : String) : Option Cell :=
  let (negative, cs) := splitSign text.toList
  (magnitude? cs).map (Cell.withSign negative)

end StackCalc.Numeral
