/-!
Double precision numbers as bit patterns. The machine carries, compares and prints them and never
computes with them, so the pattern itself is the datum; sign, magnitude and the fraction it stands
for are read off it in exact arithmetic.
-/

namespace ClosureMachine

structure Double where
  bits : UInt64
  deriving DecidableEq, Repr, Inhabited

namespace Double

def isNegative (x : Double) : Bool := x.bits.toNat ≥ Nat.pow 2 63

/-- The bits below the sign. -/
def magnitude (x : Double) : Nat := x.bits.toNat % Nat.pow 2 63

def exponentField (x : Double) : Nat := x.magnitude / Nat.pow 2 52

def fractionField (x : Double) : Nat := x.magnitude % Nat.pow 2 52

def isNaN (x : Double) : Bool := x.exponentField == 2047 && x.fractionField != 0

def isInfinite (x : Double) : Bool := x.exponentField == 2047 && x.fractionField == 0

def isZero (x : Double) : Bool := x.magnitude == 0

/-- Numeric equality: the two zeros are equal, and a NaN equals nothing. -/
def same (x y : Double) : Bool :=
  !x.isNaN && !y.isNaN && (x.bits == y.bits || (x.isZero && y.isZero))

/-- The integer significand of a finite number; subnormal numbers lack the leading bit. -/
def significand (x : Double) : Nat :=
  if x.exponentField = 0 then x.fractionField else x.fractionField + Nat.pow 2 52

/-- The power of two that scales the significand, raised by 1075 so that it is natural. -/
def scale (x : Double) : Nat := max 1 x.exponentField

/-- A finite magnitude is `numerator / denominator`. -/
def numerator (x : Double) : Nat := x.significand * Nat.pow 2 (x.scale - 1075)

def denominator (x : Double) : Nat := Nat.pow 2 (1075 - x.scale)

def isIntegral (x : Double) : Bool := x.numerator % x.denominator == 0

end Double

end ClosureMachine
