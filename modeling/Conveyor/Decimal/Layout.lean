import Conveyor.Decimal.Digits
import Conveyor.Decimal.Shortest

/-!
# Writing floating-point numbers

The digits of a number come from `Binary64.shortest`; a `Layout` says how they are set out: which
numbers are written without an exponent, whether a whole number keeps `.0`, and which mark a
positive exponent has.
-/

namespace Conveyor

namespace Decimal

/-- How the digits of a number are set out. A number `0.d₁d₂… · 10 ^ point` is written without an
exponent when `point` lies in the range. -/
structure Layout where
  /-- The least `point` without an exponent; none has no least. -/
  least : Option Int
  /-- The greatest `point` without an exponent; none has no greatest. -/
  greatest : Option Int
  /-- Whether a whole number ends in `.0`. -/
  wholePoint : Bool
  /-- The mark before a positive exponent. -/
  plus : String

/-- Numbers in JSON texts: an exponent below `0.00001` and from `10 ^ 16` up, with its sign. -/
def Layout.json : Layout := ⟨some (-4), some 16, true, "+"⟩

/-- Numbers in YAML texts: as in JSON, a positive exponent without a sign. -/
def Layout.yaml : Layout := ⟨some (-4), some 16, true, ""⟩

/-- Numbers in messages: never an exponent. -/
def Layout.plain : Layout := ⟨none, none, false, ""⟩

/-- Numbers in messages that show that a number is not a whole one by its type. -/
def Layout.plainPoint : Layout := ⟨none, none, true, ""⟩

/-- Whether `point` is in the range without an exponent. -/
def Layout.isPositional (layout : Layout) (point : Int) : Bool :=
  (layout.least.all (· ≤ point)) && (layout.greatest.all (point ≤ ·))

/-- The digits with the decimal point `point` places after the start. -/
def positional (wholePoint : Bool) (ds : List Char) (point : Int) : List Char :=
  if point ≤ 0 then ['0', '.'] ++ List.replicate (-point).toNat '0' ++ ds
  else if ds.length ≤ point.toNat then
    ds ++ List.replicate (point.toNat - ds.length) '0' ++ (if wholePoint then ['.', '0'] else [])
  else ds.take point.toNat ++ ['.'] ++ ds.drop point.toNat

/-- One digit, the others after a point, and the exponent. -/
def scientific (plus : String) (ds : List Char) (point : Int) : List Char :=
  let e := point - 1
  let mantissa := match ds with
    | d :: rest@(_ :: _) => d :: '.' :: rest
    | ds => ds
  mantissa ++ ['e'] ++ (if e < 0 then ['-'] else plus.toList) ++ digits e.natAbs

/-- A finite number set out by a layout. -/
def Layout.write (layout : Layout) (x : Binary64) : String :=
  let sign := if x.isNegative then ['-'] else []
  if x.significand = 0 then
    String.ofList (sign ++ (if layout.wholePoint then ['0', '.', '0'] else ['0']))
  else
    let numeral := x.shortest
    let ds := digits numeral.digits
    let point : Int := ds.length + numeral.exponent
    String.ofList (sign ++
      if layout.isPositional point then positional layout.wholePoint ds point
      else scientific layout.plus ds point)

/-- The number of tenths nearest to a finite number, a half to the even one, as text. -/
def oneDecimal (x : Binary64) : String :=
  let (n, d) := Binary64.scaled (x.significand * 10) 1 (-x.exponent)
  let tenths := Binary64.divideToEven n d
  (if x.isNegative then "-" else "") ++ text (tenths / 10) ++ "." ++ text (tenths % 10)

end Decimal

end Conveyor
