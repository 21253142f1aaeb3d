import ClosureMachine.Double

/-!
Shortest decimals. Every finite double is the nearest double to an interval of reals; among the
decimals in that interval the one with the fewest digits is chosen, and among those the nearest to
the number itself. All tests are exact comparisons of fractions.
-/

namespace ClosureMachine

/-- The number `digits · 10 ^ exponent`. -/
structure Decimal where
  digits : Nat
  exponent : Int
  deriving DecidableEq, Repr

namespace Decimal

def tens (p : Int) : Nat := Nat.pow 10 p.toNat

def trim : Nat → Decimal → Decimal
  | 0, d => d
  | fuel + 1, d =>
    if d.digits ≠ 0 ∧ d.digits % 10 = 0 then trim fuel ⟨d.digits / 10, d.exponent + 1⟩ else d

def positional (d : Decimal) : String :=
  let s := Nat.repr d.digits
  if 0 ≤ d.exponent then
    s ++ String.ofList (List.replicate d.exponent.toNat '0')
  else
    let places := (-d.exponent).toNat
    let padded := List.replicate (places + 1 - s.length) '0' ++ s.toList
    String.ofList (padded.take (padded.length - places)) ++ "." ++
      String.ofList (padded.drop (padded.length - places))

end Decimal

/-- The reals that round to `value / unit`: from `low / unit` to `high / unit`, the ends included
when `closed`. -/
structure RoundingInterval where
  low : Nat
  value : Nat
  high : Nat
  unit : Nat
  closed : Bool
  deriving Repr

namespace RoundingInterval

/-- The interval of a finite number. It reaches half way to each neighbour; below a power of two
the neighbour is only half as far away. A tie rounds to the even significand. -/
def ofDouble (x : Double) : RoundingInterval where
  low := (4 * x.significand - if x.fractionField = 0 ∧ 1 < x.exponentField then 1 else 2) *
    Nat.pow 2 (x.scale - 1075)
  value := 4 * x.numerator
  high := (4 * x.significand + 2) * Nat.pow 2 (x.scale - 1075)
  unit := 4 * x.denominator
  closed := x.significand % 2 == 0

def contains (i : RoundingInterval) (d : Decimal) : Bool :=
  let x := d.digits * Decimal.tens d.exponent * i.unit
  let low := i.low * Decimal.tens (-d.exponent)
  let high := i.high * Decimal.tens (-d.exponent)
  if i.closed then low ≤ x && x ≤ high else low < x && x < high

/-- The number of decimal places before the point: `10 ^ (k - 1) ≤ value / unit < 10 ^ k`. -/
def magnitude (i : RoundingInterval) : Int :=
  let g : Int := (Nat.repr i.value).length - (Nat.repr i.unit).length
  if i.value * Decimal.tens (-g) < i.unit * Decimal.tens g then g else g + 1

/-- The best decimal of at most `n` digits in the interval: the nearer of the two neighbours of
the value on that grid, and the upper one when both are equally near. -/
def best? (i : RoundingInterval) (n : Nat) : Option Decimal :=
  let p := i.magnitude - n
  let up := Decimal.tens (-p)
  let down := Decimal.tens p
  let d := i.value * up / (i.unit * down)
  let below : Decimal := ⟨d, p⟩
  let above : Decimal := ⟨d + 1, p⟩
  match i.contains below, i.contains above with
  | true, true =>
    if i.value * up - d * down * i.unit < (d + 1) * down * i.unit - i.value * up
    then some below else some above
  | true, false => some below
  | false, true => some above
  | false, false => none

def shortest (i : RoundingInterval) : Decimal :=
  let d := ((List.range 17).findSome? fun n => i.best? (n + 1)).getD ⟨0, 0⟩
  d.trim 17

end RoundingInterval

end ClosureMachine
