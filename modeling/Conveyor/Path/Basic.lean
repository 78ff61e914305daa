import Conveyor.Decimal.Digits
import Conveyor.Json.Basic

/-!
# Paths into a document

A path is a list of segments, each the key of an object member or the position of an array item. It
is written `$` followed by its segments: `.key` for a plain key, `['key']` for any other one, and
`[3]` for a position.
-/

namespace Conveyor

/-- One step into a document. -/
inductive Segment where
  | key (name : String)
  | index (position : UInt64)
  deriving DecidableEq, Repr

/-- A reference to a part of a document; without segments, to all of it. -/
structure Path where
  segments : List Segment
  deriving DecidableEq, Repr, Inhabited

namespace Path

/-- The path to the whole document. -/
def root : Path := ⟨[]⟩

/-- Whether a path is the one to the whole document. -/
def isRoot (p : Path) : Bool :=
  p.segments.isEmpty

/-- The path extended by a segment. -/
def push (p : Path) (s : Segment) : Path :=
  ⟨p.segments ++ [s]⟩

/-- The path extended by a key. -/
def key (p : Path) (name : String) : Path :=
  p.push (.key name)

/-- The path extended by a position. -/
def index (p : Path) (position : UInt64) : Path :=
  p.push (.index position)

/-- The path of the first `n` segments. -/
def take (n : Nat) (p : Path) : Path :=
  ⟨p.segments.take n⟩

/-- The characters that a plain key has none of. -/
def reserved : List Char :=
  ['.', '[', ']', '\'', '"', '{', '}', ' ', ',', '(', ')']

/-- Whether a key may be written after a point. -/
def isPlainKey (name : List Char) : Bool :=
  !name.isEmpty && !name.any (reserved.contains ·)

/-- A character of a key between quotes. -/
def escapeQuote (c : Char) : List Char :=
  if c = '\'' then ['\\', '\''] else [c]

/-- The characters of a segment. -/
def segmentChars : Segment → List Char
  | .index i => '[' :: Decimal.digits i.toNat ++ [']']
  | .key name =>
    let cs := name.toList
    if isPlainKey cs then '.' :: cs
    else ['[', '\''] ++ cs.flatMap escapeQuote ++ ['\'', ']']

/-- The characters of a path. -/
def chars (p : Path) : List Char :=
  '$' :: p.segments.flatMap segmentChars

/-- The text of a path. -/
def text (p : Path) : String :=
  String.ofList p.chars

end Path

/-! ### Errors -/

/-- Why a text is no path, no template or no expression. -/
inductive SyntaxFault where
  | missingRoot
  | emptyKey
  | unterminatedKey
  | unclosedKey
  | unterminatedIndex
  | invalidIndex
  | strayText
  | unterminatedBrace
  | unmatchedBrace
  | unknownFunction
  | unquotedFormat
  | danglingEscape
  | unterminatedFormat
  | missingComma
  | placeholderCount (placeholders arguments : Nat)
  | expressionNotText
  deriving DecidableEq, Repr

/-- The wording of a fault. -/
def SyntaxFault.message : SyntaxFault → String
  | .missingRoot => "paths must start with '$'"
  | .emptyKey => "empty key after '.'"
  | .unterminatedKey => "unterminated quoted key"
  | .unclosedKey => "expected ']' after quoted key"
  | .unterminatedIndex => "unterminated '['"
  | .invalidIndex => "array index must be a non-negative integer"
  | .strayText => "expected '.' or '[' after '$'"
  | .unterminatedBrace => "unterminated '\x7b'"
  | .unmatchedBrace => "unmatched '\x7d'"
  | .unknownFunction => "unknown intrinsic function"
  | .unquotedFormat => "format string must be single-quoted"
  | .danglingEscape => "dangling escape"
  | .unterminatedFormat => "unterminated format string"
  | .missingComma => "expected ',' after the format string"
  | .placeholderCount placeholders arguments =>
    "format string has " ++ Decimal.text placeholders ++ " placeholders but "
      ++ Decimal.text arguments ++ " arguments"
  | .expressionNotText => "expression fields must hold a string"

/-- Why a path cannot be read or resolved. -/
inductive PathError where
  /-- The document has nothing at the path. -/
  | notFound (path : Path)
  /-- A part of the document on the way is not of the kind that the path goes through. -/
  | typeMismatch (path : Path) (expected found : Kind)
  /-- The text is not a path, template or expression. -/
  | malformed (input : String) (fault : SyntaxFault)
  deriving DecidableEq, Repr

/-- The wording of an error. -/
def PathError.message : PathError → String
  | .notFound path => "path '" ++ path.text ++ "' not found in document"
  | .typeMismatch path expected found =>
    "path '" ++ path.text ++ "' expected " ++ expected.name ++ " but found " ++ found.name
  | .malformed input fault => "invalid path '" ++ input ++ "': " ++ fault.message

end Conveyor
