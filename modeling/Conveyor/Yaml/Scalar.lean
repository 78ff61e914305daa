import Conveyor.Content.Basic
import Conveyor.Decimal.Digits
import Conveyor.Text.Cut
import Conveyor.Yaml.Node

/-!
# What scalars mean

A plain scalar may be a null, a boolean, an integer or a floating-point number; otherwise it is a
text, as every other scalar is unless its tag says what it is.
-/

namespace Conveyor.Yaml

/-! ### Plain scalars -/

/-- Whether a text is a word for nothing. -/
def isNullWord (s : String) : Bool :=
  s = "null" || s = "Null" || s = "NULL" || s = "~"

/-- The boolean that a text is a word for. -/
def boolean? (s : String) : Option Bool :=
  if s = "true" || s = "True" || s = "TRUE" then some true
  else if s = "false" || s = "False" || s = "FALSE" then some false
  else none

/-- Whether a text is more than one digit with a zero first, which is no number. -/
def isZeroPadded (cs : List Char) : Bool :=
  let digits :=
    match cs with
    | '-' :: rest => rest
    | '+' :: rest => rest
    | cs => cs
  digits.length > 1 && digits.head? == some '0' && digits.all Char.isDigit

/-- Reads a numeral without a sign; it may say that its base is sixteen, eight or two. -/
def magnitude? (cs : List Char) : Option Nat :=
  let inBase : Option Nat :=
    match cs with
    | '0' :: 'x' :: digits => Decimal.read? 16 digits
    | '0' :: 'o' :: digits => Decimal.read? 8 digits
    | '0' :: 'b' :: digits => Decimal.read? 2 digits
    | _ => none
  inBase <|> (if isZeroPadded cs then none else Decimal.read? 10 cs)

/-- The number of words of 128 bits. -/
def longWordCount : Nat := 0x100000000000000000000000000000000

/-- Reads an integer of at most 128 bits. -/
def integer? (cs : List Char) : Option Int :=
  match cs with
  | '-' :: rest => ((magnitude? rest).filter (2 * · ≤ longWordCount)).map fun n => -(n : Int)
  | '+' :: rest => ((magnitude? rest).filter (· < longWordCount)).map Int.ofNat
  | cs => ((magnitude? cs).filter (· < longWordCount)).map Int.ofNat

/-- Reads the exponent of a decimal; nothing is zero. -/
def exponent? : List Char → Option Int
  | [] => some 0
  | e :: rest =>
    if e == 'e' || e == 'E' then
      match rest with
      | '-' :: digits => (Decimal.read? 10 digits).map fun n => -(n : Int)
      | '+' :: digits => (Decimal.read? 10 digits).map Int.ofNat
      | digits => (Decimal.read? 10 digits).map Int.ofNat
    else none

/-- Reads a decimal after its sign: digits with a point anywhere among them, and an exponent. -/
def decimal? (negative : Bool) (cs : List Char) : Option Binary64 :=
  let whole := cs.takeWhile Char.isDigit
  let rest := cs.drop whole.length
  let (places, rest) :=
    match rest with
    | '.' :: rest =>
      let places := rest.takeWhile Char.isDigit
      (places, rest.drop places.length)
    | rest => ([], rest)
  match Decimal.read? 10 (whole ++ places), exponent? rest with
  | some digits, some exponent =>
    let x := Binary64.ofDecimal negative digits (exponent - places.length)
    if x.isFinite then some x else none
  | _, _ => none

/-- Reads a floating-point number: a decimal that is not too large, or a word. -/
def real? (cs : List Char) : Option Binary64 :=
  let infinite := [".inf", ".Inf", ".INF"].map String.toList
  let (plus, unsigned) :=
    match cs with
    | '+' :: rest => (true, rest)
    | cs => (false, cs)
  if infinite.contains unsigned then some .infinity
  else if [".nan", ".NaN", ".NAN"].map String.toList |>.contains cs then some .nan
  else
    match unsigned with
    | '-' :: rest =>
      if plus then none
      else if infinite.contains rest then some Binary64.infinity.negate
      else decimal? true rest
    | unsigned => decimal? false unsigned

/-- What a plain scalar means. -/
def plainMeaning (s : String) : Content :=
  if s.isEmpty || isNullWord s then .null
  else
    match boolean? s, integer? s.toList with
    | some b, _ => .bool b
    | none, some i => .integer i
    | none, none =>
      match if isZeroPadded s.toList then none else real? s.toList with
      | some x => .real x
      | none => .string s

/-! ### Tags -/

/-- What the names of the standard tags begin with. -/
def standardTag (name : String) : String :=
  "tag:yaml.org,2002:" ++ name

/-- The tag of a header without its mark, if it is none of the standard ones. -/
def Header.ownTag? (h : Header) : Option String :=
  match h.tag.map String.toList with
  | some ('!' :: name) => some (String.ofList name)
  | _ => none

/-- A scalar that is not what its tag says. -/
def notTagged (text expected : String) : Except ContentError Content :=
  .error (.wrongValue (.string text) expected)

/-- What a scalar means, by its tag if `byTag` says that it counts. -/
def meaning (byTag : Bool) (tag : Option String) (text : String) (style : ScalarStyle) :
    Except ContentError Content :=
  match if byTag then tag else none with
  | some tag =>
    if tag = standardTag "bool" then
      match boolean? text with
      | some b => .ok (.bool b)
      | none => notTagged text "a boolean"
    else if tag = standardTag "int" then
      match integer? text.toList with
      | some i => .ok (.integer i)
      | none => notTagged text "an integer"
    else if tag = standardTag "float" then
      match real? text.toList with
      | some x => .ok (.real x)
      | none => notTagged text "a float"
    else if tag = standardTag "null" then
      if isNullWord text then .ok .null else notTagged text "null"
    else .ok (.string text)
  | none => .ok (if style = .plain then plainMeaning text else .string text)

/-- Whether an integer fits a signed or an unsigned word. -/
def fitsWord (i : Int) : Bool :=
  decide (-0x8000000000000000 ≤ i) && decide (i < 0x10000000000000000)

/-- What content is, for messages. -/
def foundIn : Content → Found
  | .integer i => if fitsWord i then .integer i else .wide i
  | c => c.found

end Conveyor.Yaml
