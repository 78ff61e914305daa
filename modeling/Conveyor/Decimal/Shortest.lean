import Conveyor.Decimal.Binary64

/-!
# The shortest decimal of a floating-point number

Among the decimals that round to a given finite number `m · 2 ^ q`, `shortest` gives one with the
fewest digits, and of those the nearest. For each number of digits it tests the two neighbours of
the number on that decimal grid, in exact arithmetic.
-/

namespace Conveyor

/-- A decimal number `digits · 10 ^ exponent`. -/
structure Numeral where
  digits : Nat
  exponent : Int
  deriving DecidableEq, Repr

namespace Binary64

/-- The interval of the numbers that round to a finite positive number, in units of a quarter of
the last place: the ends `low` and `high` around `middle`, and whether they belong to it. -/
structure Neighbourhood where
  low : Nat
  middle : Nat
  high : Nat
  unit : Int
  closed : Bool

/-- The numbers that round to `x`. Below a power of two the spacing is half as wide. -/
def neighbourhood (x : Binary64) : Neighbourhood :=
  let m := x.significand
  let narrow := x.fraction = 0 ∧ 1 < x.exponentField
  { low := if narrow then 4 * m - 1 else 4 * m - 2
    middle := 4 * m
    high := 4 * m + 2
    unit := x.exponent - 2
    closed := m % 2 = 0 }

/-- `a · 2 ^ unit` and `b · 10 ^ e` on a common scale. -/
def onScale (a : Nat) (unit : Int) (b : Nat) (e : Int) : Nat × Nat :=
  let a := if 0 ≤ unit then a * Nat.pow 2 unit.toNat else a
  let b := if 0 ≤ unit then b else b * Nat.pow 2 (-unit).toNat
  if 0 ≤ e then (a, b * Nat.pow 10 e.toNat) else (a * Nat.pow 10 (-e).toNat, b)

/-- Whether a decimal rounds to the number. -/
def Neighbourhood.contains (n : Neighbourhood) (d : Nat) (e : Int) : Bool :=
  let (low, value) := onScale n.low n.unit d e
  let (high, value') := onScale n.high n.unit d e
  if n.closed then low ≤ value && value' ≤ high else low < value && value' < high

/-- The distance of a decimal from the number, on a scale that depends on `e` only. -/
def Neighbourhood.distance (n : Neighbourhood) (d : Nat) (e : Int) : Nat :=
  let (middle, value) := onScale n.middle n.unit d e
  max (middle - value) (value - middle)

/-- The decimal with `count` digits that is best, if one rounds to the number; `top` is the decimal
exponent of the number. -/
def Neighbourhood.candidate? (n : Neighbourhood) (top : Int) (count : Nat) : Option Numeral :=
  let e := top - count + 1
  let (middle, one) := onScale n.middle n.unit 1 e
  let below := middle / one
  match n.contains below e, n.contains (below + 1) e with
  | true, true =>
    if n.distance (below + 1) e < n.distance below e then some ⟨below + 1, e⟩ else some ⟨below, e⟩
  | true, false => some ⟨below, e⟩
  | false, true => some ⟨below + 1, e⟩
  | false, false => none

/-- The greatest `e` with `10 ^ e ≤ middle · 2 ^ unit`, searched from a guess that is at most one
too large. -/
def Neighbourhood.decimalExponent (n : Neighbourhood) : Int :=
  let guess : Int := ((n.middle.log2 + n.unit) * 30103) / 100000 + 1
  let fits (e : Int) : Bool :=
    let (middle, power) := onScale n.middle n.unit 1 e
    power ≤ middle
  if fits guess then guess else if fits (guess - 1) then guess - 1 else guess - 2

/-- Moves the zeros at the end of the digits into the exponent. -/
def Numeral.withoutZeros : Nat → Numeral → Numeral
  | 0, d => d
  | fuel + 1, d =>
    if d.digits % 10 = 0 ∧ d.digits ≠ 0 then withoutZeros fuel ⟨d.digits / 10, d.exponent + 1⟩
    else d

/-- The shortest decimal that rounds to a finite number without its sign; zero for zero. -/
def shortest (x : Binary64) : Numeral :=
  if x.significand = 0 then ⟨0, 0⟩
  else
    let n := x.neighbourhood
    let top := n.decimalExponent
    let found := (List.range 17).findSome? fun i => n.candidate? top (i + 1)
    Numeral.withoutZeros 20 (found.getD ⟨0, 0⟩)

end Binary64

end Conveyor
