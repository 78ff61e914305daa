/-!
# Numerals

Natural numbers as digits in some base, written and read back. Reading is strict: at least one
digit, digits only, and a value below a stated bound, with an optional `+` where the caller
allows one.
-/

namespace Conveyor

namespace Decimal

/-- The decimal digits of a number, without leading zeros. -/
def digits (n : Nat) : List Char :=
  Nat.toDigits 10 n

/-- The decimal text of a number. -/
def text (n : Nat) : String :=
  String.ofList (digits n)

/-- The decimal text of a whole number. -/
def signedText (i : Int) : String :=
  if i < 0 then "-" ++ text i.natAbs else text i.natAbs

/-- The value of a digit; letters of either case stand for ten and up. -/
def digitValue? (base : Nat) (c : Char) : Option Nat :=
  let n := c.toNat
  let value :=
    if '0'.toNat ≤ n ∧ n ≤ '9'.toNat then n - '0'.toNat
    else if 'a'.toNat ≤ n ∧ n ≤ 'z'.toNat then n - 'a'.toNat + 10
    else if 'A'.toNat ≤ n ∧ n ≤ 'Z'.toNat then n - 'A'.toNat + 10
    else base
  if value < base then some value else none

/-- Reads the digits that follow a value already read. -/
def readDigits? (base : Nat) : Nat → List Char → Option Nat
  | value, [] => some value
  | value, c :: rest =>
    match digitValue? base c with
    | some d => readDigits? base (value * base + d) rest
    | none => none

/-- Reads a numeral: one digit or more, and nothing else. -/
def read? (base : Nat) : List Char → Option Nat
  | [] => none
  | cs => readDigits? base 0 cs

/-- Reads a numeral with a value below `bound`, after an optional `+`. -/
def readBelow? (bound base : Nat) (cs : List Char) : Option Nat :=
  let unsigned := match cs with
    | '+' :: rest => rest
    | cs => cs
  (read? base unsigned).filter (· < bound)

/-- Reads a decimal numeral that fits 64 bits, after an optional `+`. -/
def readWord? (cs : List Char) : Option UInt64 :=
  (readBelow? 0x10000000000000000 10 cs).map Nat.toUInt64

/-- A number in base sixteen with at least `width` digits, with small or capital letters. -/
def hexText (capital : Bool) (width n : Nat) : String :=
  let ds := Nat.toDigits 16 n
  let ds := if capital then ds.map Char.toUpper else ds
  String.ofList (List.replicate (width - ds.length) '0' ++ ds)

end Decimal

end Conveyor
