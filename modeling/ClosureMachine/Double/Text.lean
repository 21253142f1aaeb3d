import ClosureMachine.Double.Shortest

/-!
The written form of a double. A whole number is written exactly, with one zero after the point;
any other finite number by its shortest decimal, and never with an exponent.
-/

namespace ClosureMachine

namespace Double

/-- The written form without a sign. -/
def unsignedText (x : Double) : String :=
  if x.isInfinite then "inf"
  else if x.isIntegral then s!"{x.numerator / x.denominator}.0"
  else (RoundingInterval.ofDouble x).shortest.positional

def text (x : Double) : String :=
  if x.isNaN then "NaN"
  else if x.isNegative then "-" ++ x.unsignedText
  else x.unsignedText

end Double

end ClosureMachine
