import Conveyor.Decimal.Digits
import Conveyor.Yaml.Token.Scalar

/-!
# Names in a text

Anchors and aliases, tags with their handles, and the directives before a document.
-/

namespace Conveyor.Yaml

/-- Reads the name of an anchor or an alias at its indicator. -/
def scanAnchor (context : String) (c : Cursor) : Except SyntaxError (String × Cursor) :=
  let name := c.skip.takeWhile isWordChar
  let stop := c.skip.skipMany name.length
  let ends := stop.blankAt 0 || stop.isAt (fun char => "?:,]\x7d%@\x60".toList.contains char) 0
  if name.isEmpty || !ends then
    .error (scanError context c.mark "did not find expected alphabetic or numeric character" stop)
  else .ok (String.ofList name, stop)

/-! ### Tags -/

/-- Whether a character may stand in the name of a resource; a few only stand there where no flow
collection can end. -/
def isResourceChar (wide : Bool) (c : Char) : Bool :=
  isWordChar c || ";/?:@&=+$.%!~*'()".toList.contains c || (wide && ",[]".toList.contains c)

/-- The number of bytes of a character, told by the first one. -/
def byteCount? (lead : Nat) : Option Nat :=
  if lead < 0x80 then some 1
  else if lead / 0x20 = 6 then some 2
  else if lead / 0x10 = 14 then some 3
  else if lead / 8 = 30 then some 4
  else none

/-- The character with the given bytes. -/
def charOfBytes (bytes : List Nat) : Char :=
  match (String.fromUTF8? ⟨(bytes.map UInt8.ofNat).toArray⟩).map String.toList with
  | some [c] => c
  | _ => '\ufffd'

/-- Reads a byte written as a percent sign and two digits. -/
def scanOctet (context : String) (start : Mark) (c : Cursor) : Except SyntaxError (Nat × Cursor) :=
  match c.rest with
  | '%' :: high :: low :: _ =>
    match Decimal.read? 16 [high, low] with
    | some octet => .ok (octet, c.skipMany 3)
    | none => .error (scanError context start "did not find URI escaped octet" c)
  | _ => .error (scanError context start "did not find URI escaped octet" c)

/-- Reads the further bytes of a character. -/
def scanTrail (context : String) (start : Mark) :
    Nat → List Nat → Cursor → Except SyntaxError (Char × Cursor)
  | 0, bytes, c => .ok (charOfBytes bytes.reverse, c)
  | n + 1, bytes, c => do
    let (octet, next) ← scanOctet context start c
    if octet / 0x40 != 2 then
      throw (scanError context start "found an incorrect trailing UTF-8 octet" c)
    scanTrail context start n (octet :: bytes) next

/-- Reads a character written as bytes. -/
def scanEncoded (context : String) (start : Mark) (c : Cursor) :
    Except SyntaxError (Char × Cursor) := do
  let (lead, next) ← scanOctet context start c
  match byteCount? lead with
  | none => throw (scanError context start "found an incorrect leading UTF-8 octet" c)
  | some count => scanTrail context start (count - 1) [lead] next

/-- Reads the characters of the name of a resource, `fuel` at most. -/
def resourceChars (context : String) (wide : Bool) (start : Mark) :
    Nat → List Char → Cursor → Except SyntaxError (List Char × Cursor)
  | 0, acc, c => .ok (acc.reverse, c)
  | fuel + 1, acc, c =>
    match c.rest with
    | [] => .ok (acc.reverse, c)
    | char :: _ =>
      if char == '%' then do
        let (char, c) ← scanEncoded context start c
        resourceChars context wide start fuel (char :: acc) c
      else if isResourceChar wide char then
        resourceChars context wide start fuel (char :: acc) c.skip
      else .ok (acc.reverse, c)

/-- Reads the name of a resource. -/
def scanResource (context : String) (wide : Bool) (start : Mark) (c : Cursor) :
    Except SyntaxError (String × Cursor) := do
  let (text, c) ← resourceChars context wide start c.rest.length [] c
  return (String.ofList text, c)

/-- Reads the name of a resource that is not empty. -/
def scanResourceSome (context : String) (wide : Bool) (start : Mark) (c : Cursor) :
    Except SyntaxError (String × Cursor) := do
  let (text, c) ← scanResource context wide start c
  if text.isEmpty then throw (scanError context start "did not find expected tag URI" c)
  return (text, c)

/-- The handle at an exclamation mark: word characters, and a second mark if there is one. -/
def Cursor.takeHandle (c : Cursor) : List Char :=
  let word := c.skip.takeWhile isWordChar
  let stop := c.skip.skipMany word.length
  '!' :: word ++ (if stop.sees '!' then ['!'] else [])

/-- Reads the handle and the suffix of a tag at its indicator. -/
def scanTagName (start : Mark) (c : Cursor) : Except SyntaxError ((String × String) × Cursor) := do
  let context := "while parsing a tag"
  if c.isAt (· == '<') 1 then
    let (suffix, c) ← scanResourceSome context true start (c.skipMany 2)
    if !c.sees '>' then
      throw (scanError "while scanning a tag" start "did not find the expected '>'" c)
    return (("", suffix), c.skip)
  let handle := c.takeHandle
  let next := c.skipMany handle.length
  if handle.length > 1 && handle.getLast? == some '!' then
    let (suffix, c) ← scanResourceSome context false start next
    return ((String.ofList handle, suffix), c)
  let (suffix, c) ← scanResource context false start next
  let suffix := String.ofList handle.tail ++ suffix
  return (if suffix.isEmpty then ("", "!") else ("!", suffix), c)

/-- Reads a tag at its indicator. -/
def scanTag (inFlow : Bool) (c : Cursor) : Except SyntaxError ((String × String) × Cursor) := do
  let start := c.mark
  let (name, c) ← scanTagName start c
  if c.blankAt 0 || (inFlow && c.sees ',') then return (name, c)
  throw (scanError "while scanning a tag" start "did not find expected whitespace or line break" c)

/-! ### Directives -/

/-- Reads a number of a version. -/
def scanVersionNumber (start : Mark) (c : Cursor) : Except SyntaxError (Nat × Cursor) := do
  let context := "while scanning a %YAML directive"
  let digits := c.takeWhile Char.isDigit
  if digits.length > 9 then
    throw (scanError context start "found extremely long version number" (c.skipMany 9))
  match Decimal.read? 10 digits with
  | some n => return (n, c.skipMany digits.length)
  | none => throw (scanError context start "did not find expected version number" c)

/-- Reads the version that a document has. -/
def scanVersion (start : Mark) (c : Cursor) : Except SyntaxError (TokenKind × Cursor) := do
  let (major, c) ← scanVersionNumber start c.skipBlanks
  if !c.sees '.' then
    throw (scanError "while scanning a %YAML directive" start
      "did not find expected digit or '.' character" c)
  let (minor, c) ← scanVersionNumber start c.skip
  return (.version major minor, c)

/-- Reads what a handle stands for. -/
def scanTagDirective (start : Mark) (c : Cursor) : Except SyntaxError (TokenKind × Cursor) := do
  let context := "while scanning a %TAG directive"
  let c := c.skipBlanks
  if !c.sees '!' then
    throw (scanError "while scanning a tag directive" start "did not find expected '!'" c)
  let handle := c.takeHandle
  let c := c.skipMany handle.length
  if handle.length > 1 && handle.getLast? != some '!' then
    throw (scanError "while parsing a tag directive" start "did not find expected '!'" c)
  if !c.isAt isBlank 0 then
    throw (scanError context start "did not find expected whitespace" c)
  let (name, c) ← scanResourceSome "while parsing a %TAG directive" true start c.skipBlanks
  if !c.blankAt 0 then
    throw (scanError context start "did not find expected whitespace or line break" c)
  return (.tagDirective (String.ofList handle) name, c)

/-- Reads a directive and the rest of its line, and the place where the directive ends. -/
def scanDirective (c : Cursor) : Except SyntaxError ((TokenKind × Mark) × Cursor) := do
  let context := "while scanning a directive"
  let start := c.mark
  let name := c.skip.takeWhile isWordChar
  let c := c.skip.skipMany name.length
  if name.isEmpty then
    throw (scanError context start "could not find expected directive name" c)
  if !c.blankAt 0 then
    throw (scanError context start "found unexpected non-alphabetical character" c)
  let (kind, c) ←
    match String.ofList name with
    | "YAML" => scanVersion start c
    | "TAG" => scanTagDirective start c
    | _ => throw (scanError context start "found unknown directive name" c)
  let stop := c.mark
  let c := c.skipBlanks.skipComment
  if !c.breaksAt 0 then
    throw (scanError context start "did not find expected comment or line break" c)
  return ((kind, stop), c.skipBreak)

end Conveyor.Yaml
