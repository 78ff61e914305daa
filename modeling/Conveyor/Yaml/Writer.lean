import Conveyor.Yaml.Scalar
import Conveyor.Yaml.Token.Cursor

/-!
# Writing YAML

Content as a text in block style. A text is plain if that reads back as the same text, otherwise
between single quotes, or between double quotes with escapes; a text of several lines is a literal
block.
-/

namespace Conveyor.Yaml

/-! ### What a text allows -/

/-- Whether a character may be written as it is. -/
def isShown (c : Char) : Bool :=
  let n := c.toNat
  n == 0x0A || (0x20 ≤ n && n ≤ 0x7E) || (0xA0 ≤ n && n ≤ 0xD7FF)
    || (0xE000 ≤ n && n ≤ 0xFFFD && n != 0xFEFF) || 0x10000 ≤ n

/-- Whether two neighbours in a text are of given kinds. -/
def hasNeighbours (first second : Char → Bool) : List Char → Bool
  | a :: b :: rest => (first a && second b) || hasNeighbours first second (b :: rest)
  | _ => false

/-- Whether a character is a space. -/
def isSpace (c : Char) : Bool :=
  c == ' '

/-- Whether a character is a blank or a break, as the end of a text is. -/
def isGap (c : Option Char) : Bool :=
  c.all fun c => isBlank c || isBreak c

/-- Whether a text begins with something that would be an indicator. -/
def startsIndicator : List Char → Bool
  | [] => false
  | c :: rest =>
    "#,[]\x7b\x7d&*!|>'\"%@\x60".toList.contains c || ("?:-".toList.contains c && isGap rest.head?)

/-- Whether a colon or a number sign inside a text would be an indicator. -/
def hasIndicator (cs : List Char) : Bool :=
  hasNeighbours (fun c => isBlank c || isBreak c) (· == '#') cs
    || hasNeighbours (· == ':') (fun c => isBlank c || isBreak c) cs
    || (cs.getLast? == some ':')

/-- Whether a text begins as a marker of a document does. -/
def startsMarker (cs : List Char) : Bool :=
  cs.take 3 == "---".toList || cs.take 3 == "...".toList

/-- Whether a text has a space before a break or a character that is not shown, for which only
double quotes will do. -/
def needsEscapes (cs : List Char) : Bool :=
  hasNeighbours isSpace isBreak cs || !cs.all isShown

/-- Whether a text may be plain as far as its characters go. -/
def allowsPlain (cs : List Char) : Bool :=
  !(cs.any isBreak || cs.head?.any isSpace || cs.getLast?.any isSpace || startsIndicator cs
    || hasIndicator cs || startsMarker cs || needsEscapes cs)

/-- Whether a text may be between single quotes. -/
def allowsSingle (cs : List Char) : Bool :=
  !(hasNeighbours isBreak isSpace cs || needsEscapes cs)

/-- Whether a text may be a literal block. -/
def allowsLiteral (cs : List Char) : Bool :=
  !(cs.isEmpty || cs.getLast?.any isSpace || needsEscapes cs)

/-- Whether a text would mean something else than a text if it were plain. -/
def isAmbiguous (s : String) : Bool :=
  match plainMeaning s with
  | .string _ => isZeroPadded s.toList
  | _ => true

/-- How a text is written. -/
def styleOf (s : String) : ScalarStyle :=
  let cs := s.toList
  if cs.contains '\n' then if allowsLiteral cs then .literal else .doubleQuoted
  else if !isAmbiguous s && allowsPlain cs then .plain
  else if allowsSingle cs then .singleQuoted
  else .doubleQuoted

/-! ### Texts -/

/-- A number of spaces. -/
def spaces (n : Nat) : List Char :=
  List.replicate n ' '

/-- The characters between single quotes; after a break the next line is indented. -/
def singleQuotedBody (indent : Nat) : Bool → List Char → List Char
  | broken, [] => if broken then spaces indent else []
  | broken, c :: rest =>
    if isBreak c then c :: singleQuotedBody indent true rest
    else
      (if broken then spaces indent else []) ++ (if c == '\'' then ['\'', '\''] else [c])
        ++ singleQuotedBody indent false rest

/-- A character between double quotes. -/
def doubleQuotedChar (c : Char) : List Char :=
  if isShown c && !isBreak c && c != '"' && c != '\\' then [c]
  else
    '\\' :: match c.toNat with
      | 0x00 => ['0']
      | 0x07 => ['a']
      | 0x08 => ['b']
      | 0x09 => ['t']
      | 0x0A => ['n']
      | 0x0B => ['v']
      | 0x0C => ['f']
      | 0x0D => ['r']
      | 0x1B => ['e']
      | 0x22 => ['"']
      | 0x5C => ['\\']
      | 0x85 => ['N']
      | 0xA0 => ['_']
      | 0x2028 => ['L']
      | 0x2029 => ['P']
      | n =>
        if n ≤ 0xFF then 'x' :: (Decimal.hexText true 2 n).toList
        else if n ≤ 0xFFFF then 'u' :: (Decimal.hexText true 4 n).toList
        else 'U' :: (Decimal.hexText true 8 n).toList

/-- The lines of a literal block; each that is not empty is indented. -/
def literalBody (indent : Nat) : Bool → List Char → List Char
  | _, [] => []
  | atStart, c :: rest =>
    if isBreak c then c :: literalBody indent true rest
    else (if atStart then spaces indent else []) ++ c :: literalBody indent false rest

/-- What the first line of a literal block says of its indentation and its end. -/
def literalHints (cs : List Char) : List Char :=
  let indentation := if cs.head?.any fun c => isSpace c || isBreak c then ['2'] else []
  let ending :=
    match cs.reverse with
    | [] => ['-']
    | last :: before =>
      if !isBreak last then ['-']
      else if before.head?.all isBreak then ['+']
      else []
  indentation ++ ending

/-- A text as a scalar, with the number of spaces before each of its further lines. -/
def textScalar (indent : Nat) (s : String) : List Char :=
  let cs := s.toList
  match styleOf s with
  | .singleQuoted => '\'' :: singleQuotedBody indent false cs ++ ['\'']
  | .doubleQuoted => '"' :: cs.flatMap doubleQuotedChar ++ ['"']
  | .literal => '|' :: literalHints cs ++ '\n' :: literalBody indent true cs
  | .plain | .folded => cs

/-- A floating-point number. -/
def realText (x : Binary64) : String :=
  if x.isFinite then Decimal.Layout.yaml.write x
  else if x.isNaN then ".nan"
  else if x.isNegative then "-.inf"
  else ".inf"

/-! ### Values -/

/-- Where a value stands: behind a key and its colon, or behind an indicator. -/
inductive Position where
  | behindKey
  | behindIndicator
  deriving DecidableEq

/-- Whether a key is short enough, and of a single line, to stand before its colon. -/
def isSimpleKey (s : String) : Bool :=
  !s.toList.any isBreak && s.utf8ByteSize ≤ 128

/-- A piece of text with a break at its end. -/
def endLine (cs : List Char) : List Char :=
  if cs.getLast?.any isBreak then cs else cs ++ ['\n']

/-- Pieces of text one below the other, the first one where the writing has come to. -/
def stack (indent : Nat) : List (List Char) → List Char
  | [] => []
  | piece :: pieces =>
    endLine piece ++ pieces.flatMap fun piece => spaces indent ++ endLine piece

/-- The entries or items of a collection, which is inside one with a given indentation. -/
def collection (indent : Nat) (position : Position) (own : Nat) (pieces : List (List Char)) :
    List Char :=
  match position with
  | .behindKey => '\n' :: spaces own ++ stack own pieces
  | .behindIndicator => ' ' :: stack (indent + 2) pieces

/-- An entry of a mapping. -/
def entryText (indent : Nat) (key : String) (value : Position → List Char) : List Char :=
  if isSimpleKey key then textScalar (indent + 2) key ++ ':' :: value .behindKey
  else
    endLine ('?' :: ' ' :: textScalar (indent + 2) key) ++ spaces indent
      ++ ':' :: value .behindIndicator

/-- The text of a key; the keys of what is written are texts. -/
def keyText : Content → String
  | .string s => s
  | _ => ""

mutual

/-- A value inside a collection with a given indentation. -/
def valueText (indent : Nat) (position : Position) : Content → List Char
  | .null => " null".toList
  | .bool b => (if b then " true" else " false").toList
  | .integer i => ' ' :: (Decimal.signedText i).toList
  | .real x => ' ' :: (realText x).toList
  | .string s => ' ' :: textScalar (indent + 2) s
  | .sequence [] => " []".toList
  | .mapping [] => " \x7b\x7d".toList
  | .sequence (item :: items) =>
    let own := if position = .behindKey then indent else indent + 2
    collection indent position own (itemTexts own (item :: items))
  | .mapping (entry :: entries) =>
    collection indent position (indent + 2) (entryTexts (indent + 2) (entry :: entries))

/-- The items of a sequence, each with its dash. -/
def itemTexts (indent : Nat) : List Content → List (List Char)
  | [] => []
  | item :: items => ('-' :: valueText indent .behindIndicator item) :: itemTexts indent items

/-- The entries of a mapping. -/
def entryTexts (indent : Nat) : List (Content × Content) → List (List Char)
  | [] => []
  | (key, value) :: entries =>
    entryText indent (keyText key) (fun position => valueText indent position value)
      :: entryTexts indent entries

end

/-- The text of a mapping. -/
def write : Content → String
  | .mapping (entry :: entries) => String.ofList (stack 0 (entryTexts 0 (entry :: entries)))
  | c => String.ofList (endLine (valueText 0 .behindKey c).tail)

end Conveyor.Yaml
