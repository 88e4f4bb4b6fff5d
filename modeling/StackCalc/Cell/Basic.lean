/-!
# Cells

Code and operand stack are made of IEEE doubles, and a cell is the 64 bits of one. The bits are
kept because they can be told apart by more than the number they stand for: the sign of a zero, and
whether a NaN is signaling. A finite cell is `significand * 2 ^ exponent` up to its sign; everything
exact about numbers in this library is computed on those two.
-/

namespace StackCalc

structure Cell where
  bits : UInt64
deriving DecidableEq, Repr

namespace Cell

def ofFloat (x : Float) : Cell := ⟨x.toBits⟩

def toFloat (x : Cell) : Float := .ofBits x.bits

def signBit : Nat := 0x8000000000000000

def leadingBit : Nat := 0x10000000000000

/-- The bits of infinity; those of a NaN, but for its sign, are a greater number. -/
def infinityBits : Nat := 0x7ff0000000000000

def quietBit : Nat := 0x8000000000000

def zero : Cell := ⟨0⟩

def one : Cell := ⟨0x3ff0000000000000⟩

def infinity : Cell := ⟨.ofNat infinityBits⟩

def nan : Cell := ⟨.ofNat (infinityBits + quietBit)⟩

def isNegative (x : Cell) : Bool := signBit ≤ x.bits.toNat

/-- The bits below the sign. Read as a number they order the cells of one sign. -/
def magnitudeBits (x : Cell) : Nat := x.bits.toNat % signBit

def isZero (x : Cell) : Bool := magnitudeBits x = 0

def isInf (x : Cell) : Bool := magnitudeBits x = infinityBits

def isNaN (x : Cell) : Bool := infinityBits < magnitudeBits x

def isSignaling (x : Cell) : Bool := x.isNaN && magnitudeBits x < infinityBits + quietBit

def biasedExponent (x : Cell) : Nat := magnitudeBits x / leadingBit

def fraction (x : Cell) : Nat := magnitudeBits x % leadingBit

def significand (x : Cell) : Nat :=
  if biasedExponent x = 0 then fraction x else leadingBit + fraction x

/-- Subnormal cells share the exponent of the smallest normal ones. -/
def exponent (x : Cell) : Int := max (biasedExponent x) 1 - 1075

def wholePart (x : Cell) : Nat := (significand x <<< (exponent x).toNat) >>> (-exponent x).toNat

/-- Numeric equality: the two zeros are equal, and a NaN equals nothing. -/
def equals (x y : Cell) : Bool :=
  !x.isNaN && !y.isNaN && (x = y || x.isZero && y.isZero)

/-- Adding the sign's bit flips it, since a carry out of it is lost. A signaling NaN stays one. -/
instance : Neg Cell := ⟨fun x => ⟨x.bits + .ofNat signBit⟩⟩

def abs (x : Cell) : Cell := ⟨.ofNat (magnitudeBits x)⟩

def withSign (negative : Bool) (x : Cell) : Cell := if negative then -x else x

end Cell

end StackCalc
