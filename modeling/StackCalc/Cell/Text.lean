import StackCalc.Decimal.Shortest

/-!
# The text of a cell

Both texts write the shortest decimal that stands for the cell. Results use `display`, which is
always positional; cell lists use `dump`, where very large and very small cells have an exponent
and all others a point.
-/

namespace StackCalc.Cell

structure Layout where
  /-- Whether a number whose first digit is worth `10 ^ e` is written without exponent. -/
  positional : Int → Bool
  /-- Whether a whole number is written with `.0` after it. -/
  point : Bool

def Layout.result : Layout := ⟨fun _ => true, false⟩

def Layout.listed : Layout := ⟨fun e => -4 ≤ e && e < 16, true⟩

def positional (digits : List Char) (place : Int) (point : Bool) : List Char :=
  if place ≤ 0 then '0' :: '.' :: (.replicate (-place).toNat '0' ++ digits)
  else if digits.length ≤ place then
    digits ++ .replicate (place.toNat - digits.length) '0' ++ if point then ['.', '0'] else []
  else digits.take place.toNat ++ '.' :: digits.drop place.toNat

def scientific (digits : List Char) (exponent : Int) : List Char :=
  digits.take 1 ++ (if 1 < digits.length then '.' :: digits.drop 1 else []) ++
    'e' :: (toString exponent).toList

def layOut (layout : Layout) (d : Decimal) : List Char :=
  let digits := Nat.toDigits 10 d.digits
  let place := digits.length + d.exponent
  if d.digits = 0 then positional ['0'] 1 layout.point
  else if layout.positional (place - 1) then positional digits place layout.point
  else scientific digits (place - 1)

def write (layout : Layout) (x : Cell) : String :=
  if x.isNaN then "NaN"
  else
    let text := if x.isInf then "inf" else .ofList (layOut layout (.shortest x.abs))
    if isNegative x then "-" ++ text else text

def display (x : Cell) : String := write .result x

def dump (x : Cell) : String := write .listed x

def dumpAll (xs : List Cell) : String := "[" ++ ", ".intercalate (xs.map dump) ++ "]"

end StackCalc.Cell
