/-!
# Tokens of YAML

The tokens of a YAML text with the places where they begin and end, and what a syntax error says.
Indentation is turned into tokens: a block collection begins and ends with tokens of its own.
-/

namespace Conveyor.Yaml

/-- A place in a text, counted from zero. -/
structure Mark where
  /-- The number of characters before it. -/
  index : Nat
  line : Nat
  column : Nat
  deriving DecidableEq, Repr, Inhabited

/-- The beginning of a text. -/
def Mark.zero : Mark := ⟨0, 0, 0⟩

/-- Whether a place is the beginning of the first line, which messages leave out. -/
def Mark.isOrigin (m : Mark) : Bool :=
  m.line = 0 && m.column = 0

/-- How a scalar is written. -/
inductive ScalarStyle where
  | plain
  | singleQuoted
  | doubleQuoted
  | literal
  | folded
  deriving DecidableEq, Repr

/-- What a token is. -/
inductive TokenKind where
  | streamStart
  | streamEnd
  | version (major minor : Nat)
  | tagDirective (handle start : String)
  | documentStart
  | documentEnd
  | blockSequenceStart
  | blockMappingStart
  | blockEnd
  | flowSequenceStart
  | flowSequenceEnd
  | flowMappingStart
  | flowMappingEnd
  | blockEntry
  | flowEntry
  | key
  | value
  | alias (name : String)
  | anchor (name : String)
  | tag (handle suffix : String)
  | scalar (text : String) (style : ScalarStyle)
  deriving DecidableEq, Repr

/-- A token with the places where it begins and ends. -/
structure Token where
  kind : TokenKind
  start : Mark
  stop : Mark
  deriving DecidableEq, Repr

/-- Why a text is not YAML. -/
structure SyntaxError where
  problem : String
  /-- The place of the problem. -/
  mark : Mark
  /-- What was being read, and where it began. -/
  context : Option (String × Mark)
  /-- The place of a forbidden character in bytes. -/
  offset : Nat
  deriving DecidableEq, Repr

/-- The tokens of a text as far as they are certain, and the error after them. -/
structure TokenStream where
  tokens : List Token
  error : Option SyntaxError
  deriving Repr

end Conveyor.Yaml
