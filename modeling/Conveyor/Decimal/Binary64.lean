/-!
# Binary floating-point numbers of 64 bits

A number is its bit pattern. A finite one is `±significand · 2 ^ exponent` with a significand
below `2 ^ 53`; `nearest` rounds a quotient of natural numbers to the nearest such number, ties to
an even significand, and `ofDecimal` does so for a decimal numeral. Arithmetic is that of the
machine.
-/

namespace Conveyor

/-- A floating-point number, told apart from others by its bits. -/
structure Binary64 where
  bits : UInt64
  deriving DecidableEq, Repr, Inhabited

namespace Binary64

/-- The machine number with the same bits. -/
def toFloat (x : Binary64) : Float :=
  Float.ofBits x.bits

/-- The bits of a machine number. -/
def ofFloat (x : Float) : Binary64 :=
  ⟨x.toBits⟩

/-- The exponent bits. -/
def exponentField (x : Binary64) : Nat :=
  x.bits.toNat / 0x10000000000000 % 0x800

/-- The bits below the exponent. -/
def fraction (x : Binary64) : Nat :=
  x.bits.toNat % 0x10000000000000

/-- Whether the sign bit is set; it may be on a zero. -/
def isNegative (x : Binary64) : Bool :=
  0x8000000000000000 ≤ x.bits.toNat

/-- Neither infinite nor a NaN. -/
def isFinite (x : Binary64) : Bool :=
  x.exponentField != 2047

/-- Not a number. -/
def isNaN (x : Binary64) : Bool :=
  x.exponentField == 2047 && x.fraction != 0

/-- The significand of a finite number, an implicit leading one included. -/
def significand (x : Binary64) : Nat :=
  if x.exponentField = 0 then x.fraction else 0x10000000000000 + x.fraction

/-- The power of two that the significand of a finite number is taken times. -/
def exponent (x : Binary64) : Int :=
  if x.exponentField = 0 then -1074 else (x.exponentField : Int) - 1075

/-- Positive infinity. -/
def infinity : Binary64 := ⟨0x7FF0000000000000⟩

/-- A quiet NaN with a clear sign bit. -/
def nan : Binary64 := ⟨0x7FF8000000000000⟩

/-- Positive zero. -/
def zero : Binary64 := ⟨0⟩

/-- The number with the sign bit turned over. -/
def negate (x : Binary64) : Binary64 :=
  ⟨x.bits ^^^ 0x8000000000000000⟩

/-- The quotient of two natural numbers rounded to a natural number, a half to the even one. -/
def divideToEven (num den : Nat) : Nat :=
  let quotient := num / den
  let twice := 2 * (num % den)
  if twice > den ∨ (twice = den ∧ quotient % 2 = 1) then quotient + 1 else quotient

/-- `num / (den · 2 ^ q)` as a quotient of natural numbers. -/
def scaled (num den : Nat) (q : Int) : Nat × Nat :=
  if 0 ≤ q then (num, den * Nat.pow 2 q.toNat) else (num * Nat.pow 2 (-q).toNat, den)

/-- The exponent at which the significand of `num / den` has 53 bits, or the least exponent. -/
def binaryExponent (num den : Nat) : Int :=
  let q : Int := (num.log2 : Int) - (den.log2 : Int) - 52
  let (n, d) := scaled num den q
  let q := if n / d < 0x10000000000000 then q - 1 else q
  max q (-1074)

/-- The bits of `m · 2 ^ q` for a significand of at most 53 bits; too large a value is infinite. -/
def pack (m : Nat) (q : Int) : Binary64 :=
  if m < 0x10000000000000 then ⟨m.toUInt64⟩
  else if 971 < q then infinity
  else ⟨(((q + 1075).toNat * 0x10000000000000) + (m - 0x10000000000000)).toUInt64⟩

/-- The number nearest to `num / den`, for a positive `den`. -/
def nearest (num den : Nat) : Binary64 :=
  if num = 0 then zero
  else
    let q := binaryExponent num den
    let (n, d) := scaled num den q
    let m := divideToEven n d
    if m = 0x20000000000000 then pack 0x10000000000000 (q + 1) else pack m q

/-- The number nearest to `± digits · 10 ^ exponent`. Beyond any finite number it is infinite, and
far below the smallest one it is zero, without the power being computed. -/
def ofDecimal (negative : Bool) (digits : Nat) (exponent : Int) : Binary64 :=
  let magnitude : Int := (Nat.toDigits 10 digits).length + exponent
  let x :=
    if digits = 0 ∨ magnitude < -400 then zero
    else if 400 < magnitude then infinity
    else if 0 ≤ exponent then nearest (digits * Nat.pow 10 exponent.toNat) 1
    else nearest digits (Nat.pow 10 (-exponent).toNat)
  if negative then x.negate else x

/-- The number nearest to a whole number. -/
def ofInt (i : Int) : Binary64 :=
  let x := nearest i.natAbs 1
  if i < 0 then x.negate else x

/-- The greater of two numbers; a NaN loses against a number. -/
def larger (x y : Binary64) : Binary64 :=
  if x.isNaN then y
  else if y.isNaN then x
  else if x.toFloat < y.toFloat then y else x

/-- Multiplication of machine numbers. -/
def mul (x y : Binary64) : Binary64 :=
  ofFloat (x.toFloat * y.toFloat)

/-- Addition of machine numbers. -/
def add (x y : Binary64) : Binary64 :=
  ofFloat (x.toFloat + y.toFloat)

/-- Division of machine numbers. -/
def div (x y : Binary64) : Binary64 :=
  ofFloat (x.toFloat / y.toFloat)

/-- The number one. -/
def one : Binary64 := ⟨0x3FF0000000000000⟩

/-- Multiplies `acc` by the `n`-th power of `x`, squaring once per binary digit of `n`. -/
def powAux (x acc : Binary64) (n : Nat) : Binary64 :=
  if n = 0 then acc
  else
    let acc := if n % 2 = 1 then acc.mul x else acc
    if n / 2 = 0 then acc else powAux (x.mul x) acc (n / 2)
termination_by n
decreasing_by omega

/-- A whole power, by squaring; a negative one is the reciprocal of the positive one. -/
def pow (x : Binary64) (n : Int) : Binary64 :=
  let power := powAux x one n.natAbs
  if n < 0 then one.div power else power

/-- The whole part as a word: a NaN and negative numbers give zero, and too large ones the
greatest word. -/
def toWord (x : Binary64) : UInt64 :=
  x.toFloat.toUInt64

end Binary64

end Conveyor
