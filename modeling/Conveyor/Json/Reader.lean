import Conveyor.Json.Writer
import Conveyor.Text.Quoted

/-!
# Reading JSON

`Json.read` reads a text as one document. An error names its cause and the place where reading
stopped, as a line and a column counted in bytes. Documents nest at most 127 deep. A number is a
whole number when it is written without fraction and exponent and fits a word, and otherwise the
nearest floating-point number. Of two members with one key the last counts.
-/

namespace Conveyor

namespace Json

/-- Why a text is not a document. -/
inductive ReadFault where
  | endOfList
  | endOfObject
  | endOfString
  | endOfValue
  | expectedColon
  | expectedListEnd
  | expectedObjectEnd
  | expectedWord
  | expectedValue
  | invalidEscape
  | invalidNumber
  | outOfRange
  | controlCharacter
  | keyNotString
  | loneSurrogate
  | unpairedSurrogate
  | trailingComma
  | trailingText
  | tooDeep
  /-- A document of another type than the reader asked for. -/
  | wrongType (found expected : String)
  deriving DecidableEq, Repr

/-- The wording of a fault. -/
def ReadFault.message : ReadFault → String
  | .endOfList => "EOF while parsing a list"
  | .endOfObject => "EOF while parsing an object"
  | .endOfString => "EOF while parsing a string"
  | .endOfValue => "EOF while parsing a value"
  | .expectedColon => "expected `:`"
  | .expectedListEnd => "expected `,` or `]`"
  | .expectedObjectEnd => "expected `,` or `\x7d`"
  | .expectedWord => "expected ident"
  | .expectedValue => "expected value"
  | .invalidEscape => "invalid escape"
  | .invalidNumber => "invalid number"
  | .outOfRange => "number out of range"
  | .controlCharacter =>
    "control character (\\u0000-\\u001F) found while parsing a string"
  | .keyNotString => "key must be a string"
  | .loneSurrogate => "lone leading surrogate in hex escape"
  | .unpairedSurrogate => "unexpected end of hex escape"
  | .trailingComma => "trailing comma"
  | .trailingText => "trailing characters"
  | .tooDeep => "recursion limit exceeded"
  | .wrongType found expected => "invalid type: " ++ found ++ ", expected " ++ expected

/-- A fault and where it was found: a line from one, and the bytes of it that were read. -/
structure ReadError where
  fault : ReadFault
  line : Nat
  column : Nat
  deriving DecidableEq, Repr

/-- The wording of an error. -/
def ReadError.message (e : ReadError) : String :=
  e.fault.message ++ " at line " ++ Decimal.text e.line ++ " column " ++ Decimal.text e.column

/-- The text still to be read, and the place where it starts. -/
structure Cursor where
  rest : List Char
  line : Nat
  column : Nat

/-- The place after one more byte, at most the end of the text. -/
def Cursor.afterByte (c : Cursor) : Nat × Nat :=
  match c.rest with
  | [] => (c.line, c.column)
  | '\n' :: _ => (c.line + 1, 0)
  | _ :: _ => (c.line, c.column + 1)

/-- The cursor after one more character. -/
def Cursor.next (c : Cursor) : Cursor :=
  match c.rest with
  | [] => c
  | '\n' :: rest => ⟨rest, c.line + 1, 0⟩
  | ch :: rest => ⟨rest, c.line, c.column + ch.utf8Size⟩

/-- The place after `n` more bytes. -/
def Cursor.afterBytes : Nat → Cursor → Nat × Nat
  | 0, c => (c.line, c.column)
  | n + 1, c =>
    match c.rest with
    | [] => (c.line, c.column)
    | ch :: _ =>
      if ch.utf8Size ≤ n + 1 then afterBytes (n + 1 - ch.utf8Size) c.next
      else (c.line, c.column + (n + 1))
termination_by n => n
decreasing_by have := Char.utf8Size_pos ch; omega

/-- Reading with a cursor, which may fail. -/
abbrev Reading := StateT Cursor (Except ReadError)

/-- A fault at the place reached. -/
def faultHere (fault : ReadFault) : Reading α := do
  let c ← get
  throw ⟨fault, c.line, c.column⟩

/-- A fault at the place after the next byte, on which it is blamed. -/
def faultAhead (fault : ReadFault) : Reading α := do
  let (line, column) := (← get).afterByte
  throw ⟨fault, line, column⟩

/-- The next character. -/
def peek : Reading (Option Char) := do
  return (← get).rest.head?

/-- Steps over the next character. -/
def skip : Reading Unit :=
  modify Cursor.next

/-- Whether a character may stand between tokens. -/
def isSpace (c : Char) : Bool :=
  c == ' ' || c == '\n' || c == '\t' || c == '\r'

/-- The cursor at the first character that is no space. -/
def Cursor.skipSpaces : List Char → Cursor → Cursor
  | [], c => c
  | ch :: rest, c => if isSpace ch then skipSpaces rest c.next else c

/-- Steps over spaces and gives the character after them. -/
def peekToken : Reading (Option Char) := do
  modify fun c => c.skipSpaces c.rest
  peek

/-- Reads the rest of a word whose first character has been read. -/
def readWord : List Char → Reading Unit
  | [] => pure ()
  | w :: word => do
    match ← peek with
    | none => faultHere .endOfValue
    | some c =>
      if c == w then
        skip
        readWord word
      else faultAhead .expectedWord

/-! ### Numbers -/

/-- Whether a character is a decimal digit. -/
def isDigit (c : Char) : Bool :=
  '0' ≤ c && c ≤ '9'

/-- Reads digits as far as they go. -/
def readDigits : Reading (List Char) := do
  let ds := (← get).rest.takeWhile isDigit
  modify fun c => { c with rest := c.rest.dropWhile isDigit, column := c.column + ds.length }
  return ds

/-- The value of digits. -/
def digitsValue (ds : List Char) : Nat :=
  (Decimal.readDigits? 10 0 ds).getD 0

/-- The nearest floating-point number to a decimal; it is a fault if that is infinite. -/
def realNumber (negative : Bool) (ds : List Char) (exponent : Int) : Reading Number :=
  match Number.ofBinary64? (Binary64.ofDecimal negative (digitsValue ds) exponent) with
  | some n => pure n
  | none => faultHere .outOfRange

/-- Reads the digits of an exponent after the first one. An exponent beyond 31 bits gives nothing;
unless the number is then zero, it is a fault at the digit that goes too far. -/
def readExponentDigits (small : Bool) : Nat → List Char → Reading (Option Nat)
  | value, [] => pure (some value)
  | value, d :: ds => do
    skip
    let value := value * 10 + (d.toNat - '0'.toNat)
    if value < 0x80000000 then readExponentDigits small value ds
    else if small then do
      let _ ← readDigits
      return none
    else faultHere .outOfRange

/-- Reads an exponent after its `e`, for the digits read so far. -/
def readExponent (negative : Bool) (ds : List Char) (scale : Int) : Reading Number := do
  skip
  let sign ← peek
  if sign == some '+' || sign == some '-' then skip
  match ← peek with
  | none => faultHere .endOfValue
  | some c =>
    if isDigit c then
      skip
      let more := (← get).rest.takeWhile isDigit
      let small := sign == some '-' || digitsValue ds == 0
      match ← readExponentDigits small (c.toNat - '0'.toNat) more with
      | some e => realNumber negative ds (if sign == some '-' then scale - e else scale + e)
      | none => realNumber negative [] 0
    else faultAhead .invalidNumber

/-- Reads a fraction after its point, for the digits before it. -/
def readFraction (negative : Bool) (whole : List Char) : Reading Number := do
  skip
  let fraction ← readDigits
  if fraction.isEmpty then
    match ← peek with
    | some _ => faultAhead .invalidNumber
    | none => faultAhead .endOfValue
  else
    let scale : Int := -fraction.length
    match ← peek with
    | some 'e' | some 'E' => readExponent negative (whole ++ fraction) scale
    | _ => realNumber negative (whole ++ fraction) scale

/-- The number of a whole numeral: an integer if it fits a word and is not a negative zero. -/
def wholeNumber (negative : Bool) (ds : List Char) : Reading Number :=
  let n := digitsValue ds
  let integer? := if negative then (if n = 0 then none else Number.ofInt? (-n)) else Number.ofInt? n
  match integer? with
  | some whole => pure whole
  | none => realNumber negative ds 0

/-- Reads a number after its sign. -/
def readNumber (negative : Bool) : Reading Number := do
  match ← peek with
  | none => faultHere .endOfValue
  | some c =>
    if !isDigit c then faultAhead .invalidNumber
    else do
      let ds ← if c == '0' then do skip; pure ['0'] else readDigits
      match ← peek with
      | some '.' => readFraction negative ds
      | some 'e' | some 'E' => readExponent negative ds 0
      | some d =>
        if c == '0' && isDigit d then faultAhead .invalidNumber else wholeNumber negative ds
      | none => wholeNumber negative ds

/-! ### Strings -/

/-- Reads four digits in base sixteen. -/
def readHex : Reading Nat := do
  let c ← get
  let bytes := (c.rest.take 4).foldl (fun n ch => n + ch.utf8Size) 0
  if bytes < 4 then
    let (line, column) := c.afterBytes bytes
    throw ⟨.endOfString, line, column⟩
  else
    match Decimal.read? 16 (c.rest.take 4) with
    | some n =>
      set { c with rest := c.rest.drop 4, column := c.column + 4 }
      return n
    | none =>
      let (line, column) := c.afterBytes 4
      throw ⟨.invalidEscape, line, column⟩

/-- Steps over a character that has to come next inside an escape. -/
def expectInEscape (c : Char) : Reading Unit := do
  match ← peek with
  | none => faultHere .endOfString
  | some d => if d == c then skip else faultAhead .unpairedSurrogate

/-- Reads a code point after `\u`; one beyond 16 bits is written as two surrogates. -/
def readCodePoint : Reading Char := do
  let n ← readHex
  if 0xDC00 ≤ n && n ≤ 0xDFFF then faultHere .loneSurrogate
  else if n < 0xD800 || 0xDBFF < n then return Char.ofNat n
  else
    expectInEscape '\\'
    expectInEscape 'u'
    let low ← readHex
    if low < 0xDC00 || 0xDFFF < low then faultHere .loneSurrogate
    else return Char.ofNat (0x10000 + (n - 0xD800) * 0x400 + (low - 0xDC00))

/-- Reads an escape after its backslash. -/
def readEscape : Reading Char := do
  match ← peek with
  | none => faultHere .endOfString
  | some '"' => skip; return '"'
  | some '\\' => skip; return '\\'
  | some '/' => skip; return '/'
  | some 'b' => skip; return '\x08'
  | some 'f' => skip; return '\x0c'
  | some 'n' => skip; return '\n'
  | some 'r' => skip; return '\r'
  | some 't' => skip; return '\t'
  | some 'u' => skip; readCodePoint
  | some _ => faultAhead .invalidEscape

/-- Reads a string after its opening quote; the fuel is at least the length of the text. -/
def readString : Nat → List Char → Reading String
  | 0, _ => faultHere .endOfString
  | fuel + 1, acc => do
    match ← peek with
    | none => faultHere .endOfString
    | some '"' => skip; return String.ofList acc.reverse
    | some '\\' => skip; readString fuel ((← readEscape) :: acc)
    | some c =>
      if c.toNat < 0x20 then faultAhead .controlCharacter
      else
        skip
        readString fuel (c :: acc)

/-- Reads a string after its opening quote. -/
def readText : Reading String := do
  readString ((← get).rest.length + 1) []

/-! ### Documents -/

/-- The greatest nesting of arrays and objects. -/
def maxDepth : Nat := 127

/-- What may come before an item or member. -/
inductive Separator where
  | first
  | comma

/-- Goes to the next item of an array; false at its end, which is left to be read. -/
def nextItem (separator : Separator) : Reading Bool := do
  match ← peekToken, separator with
  | some ']', _ => return false
  | some ',', .comma =>
    skip
    match ← peekToken with
    | some ']' => faultAhead .trailingComma
    | some _ => return true
    | none => faultAhead .endOfValue
  | some _, .first => return true
  | some _, .comma => faultAhead .expectedListEnd
  | none, _ => faultAhead .endOfList

/-- Goes to the next key of an object; false at its end, which is left to be read. -/
def nextKey (separator : Separator) : Reading Bool := do
  match ← peekToken, separator with
  | some '}', _ => return false
  | some ',', .comma =>
    skip
    match ← peekToken with
    | some '"' => return true
    | some '}' => faultAhead .trailingComma
    | some _ => faultAhead .keyNotString
    | none => faultAhead .endOfValue
  | some '"', .first => return true
  | some _, .first => faultAhead .keyNotString
  | some _, .comma => faultAhead .expectedObjectEnd
  | none, _ => faultAhead .endOfObject

/-- Reads a key and the colon after it. -/
def readKey : Reading String := do
  skip
  let key ← readText
  match ← peekToken with
  | some ':' => skip; return key
  | some _ => faultAhead .expectedColon
  | none => faultAhead .endOfObject

/-- Reads members after an opening brace, their values by `value`, up to the closing brace. -/
def readMembers (value : Reading α) : Nat → Separator → List (String × α) →
    Reading (List (String × α))
  | 0, _, _ => faultHere .endOfObject
  | fuel + 1, separator, acc => do
    if ← nextKey separator then
      let key ← readKey
      let v ← value
      readMembers value fuel .comma ((key, v) :: acc)
    else
      skip
      return acc.reverse

/-- Reads items after an opening bracket, up to the closing bracket. -/
def readItems (value : Reading α) : Nat → Separator → List α → Reading (List α)
  | 0, _, _ => faultHere .endOfList
  | fuel + 1, separator, acc => do
    if ← nextItem separator then
      let v ← value
      readItems value fuel .comma (v :: acc)
    else
      skip
      return acc.reverse

/-- Reads a document, with `inner` for the documents inside it; without it nesting is a fault. -/
def readDocument (inner : Option (Reading Json)) : Reading Json := do
  match ← peekToken with
  | none => faultAhead .endOfValue
  | some 'n' => skip; readWord "ull".toList; return .null
  | some 't' => skip; readWord "rue".toList; return .bool true
  | some 'f' => skip; readWord "alse".toList; return .bool false
  | some '-' => skip; return .number (← readNumber true)
  | some '"' => skip; return .string (← readText)
  | some '[' =>
    match inner with
    | none => faultAhead .tooDeep
    | some inner =>
      skip
      return .array (← readItems inner ((← get).rest.length + 1) .first [])
  | some '{' =>
    match inner with
    | none => faultAhead .tooDeep
    | some inner =>
      skip
      return ofFields (← readMembers inner ((← get).rest.length + 1) .first [])
  | some c => if isDigit c then return .number (← readNumber false) else faultAhead .expectedValue

/-- Reads a document with at most `depth` levels of nesting. -/
def readValue : Nat → Reading Json
  | 0 => readDocument none
  | depth + 1 => readDocument (some (readValue depth))

/-- Reads what is left of a text after its document, which may be spaces only. -/
def readEnd : Reading Unit := do
  match ← peekToken with
  | some _ => faultAhead .trailingText
  | none => pure ()

/-- Reads a text with a reader for all of it. -/
def readAll (reading : Reading α) (text : String) : Except ReadError α :=
  (do let v ← reading; readEnd; return v : Reading α).run' ⟨text.toList, 1, 0⟩

/-- Reads a text as one document. -/
def read (text : String) : Except ReadError Json :=
  readAll (readValue maxDepth) text

/-! ### Texts of a known form -/

/-- How a document of an unexpected type is named in messages. -/
def describe : Json → String
  | .null => "null"
  | .bool b => "boolean `" ++ (if b then "true" else "false") ++ "`"
  | .number (.integer i _) => "integer `" ++ Decimal.signedText i ++ "`"
  | .number (.real x _) => "floating point `" ++ Decimal.Layout.json.write x ++ "`"
  | .string s => "string " ++ Text.quoted s
  | .array _ => "sequence"
  | .object _ => "map"

/-- Reads an object with values of one form, inside an object of at most `depth` levels. An array
is refused where it starts, any other document after it has been read. -/
def readObject (depth : Nat) (value : Nat → Reading α) : Reading (List (String × α)) := do
  match ← peekToken with
  | none => faultAhead .endOfValue
  | some '{' =>
    match depth with
    | 0 => faultAhead .tooDeep
    | depth + 1 =>
      skip
      readMembers (value depth) ((← get).rest.length + 1) .first []
  | some '[' => faultHere (.wrongType "sequence" "a map")
  | some _ =>
    let v ← readValue depth
    faultHere (.wrongType v.describe "a map")

/-- Reads a text as an object of objects. -/
def readObjects (text : String) : Except ReadError (List (String × List (String × Json))) := do
  let rows ← readAll (readObject maxDepth fun depth => readObject depth readValue) text
  return rows.map fun (key, fields) =>
    (key, fields.foldl (fun acc (k, v) => insert k v acc) [])

end Json

end Conveyor
