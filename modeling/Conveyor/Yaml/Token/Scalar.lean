import Conveyor.Decimal.Digits
import Conveyor.Yaml.Token.Cursor

/-!
# Scalars in a text

The three ways to write a scalar: plain, between quotes, and as a block of lines. A line break
inside a plain or quoted scalar is folded.
-/

namespace Conveyor.Yaml

/-- The error for a problem met at a cursor while something was read that began at a mark. -/
def scanError (context : String) (start : Mark) (problem : String) (c : Cursor) : SyntaxError :=
  ⟨problem, c.mark, some (context, start), 0⟩

/-! ### Plain scalars -/

/-- Whether a character ends a flow collection or begins another one. -/
def isFlowBracket (c : Char) : Bool :=
  c == '[' || c == ']' || c == '{' || c == '}'

/-- Whether a plain scalar ends before the next character, which is no blank. -/
def Cursor.endsPlain (inFlow : Bool) (c : Cursor) : Bool :=
  (c.sees ':' && c.blankAt 1) || (inFlow && c.isAt (fun c => c == ',' || isFlowBracket c) 0)

/-- Whether a colon stands where no value can follow. -/
def Cursor.strayColon (inFlow : Bool) (c : Cursor) : Bool :=
  inFlow && c.sees ':' && c.isAt (fun c => c == ',' || c == '?' || isFlowBracket c) 1

/-- Reads a run of characters of a plain scalar, `fuel` at most. -/
def plainRun (inFlow : Bool) (start : Mark) :
    Nat → List Char → Cursor → Except SyntaxError (List Char × Cursor)
  | 0, acc, c => .ok (acc.reverse, c)
  | fuel + 1, acc, c =>
    match c.rest with
    | [] => .ok (acc.reverse, c)
    | char :: _ =>
      if c.blankAt 0 then .ok (acc.reverse, c)
      else if c.strayColon inFlow then
        .error (scanError "while scanning a plain scalar" start "found unexpected ':'" c)
      else if c.endsPlain inFlow then .ok (acc.reverse, c)
      else plainRun inFlow start fuel (char :: acc) c.skip

/-- A plain scalar as far as it has been read. -/
structure PlainScalar where
  text : List Char
  /-- The place after its last character. -/
  stop : Mark
  /-- Whether a break follows it. -/
  broken : Bool

/-- The part of a plain scalar that is before the first gap. -/
def PlainScalar.empty (start : Mark) : PlainScalar := ⟨[], start, false⟩

/-- Reads the runs of a plain scalar with the gaps between them. -/
def plainRuns (inFlow : Bool) (indent : Int) (start : Mark) :
    Nat → Gap → PlainScalar → Cursor → Except SyntaxError (PlainScalar × Cursor)
  | 0, _, s, c => .ok (s, c)
  | fuel + 1, gap, s, c => do
    if c.seesDocumentMarker || c.sees '#' then return (s, c)
    let (run, c) ← plainRun inFlow start c.rest.length [] c
    if run.isEmpty then return (s, c)
    let s : PlainScalar := ⟨s.text ++ gap.text ++ run, c.mark, false⟩
    if c.atEnd || !c.blankAt 0 then return (s, c)
    match c.gap indent false with
    | .error mark =>
      throw ⟨"found a tab character that violates indentation", mark,
        some ("while scanning a plain scalar", start), 0⟩
    | .ok (gap, c) =>
      let s := { s with broken := gap.broken }
      if !inFlow && decide ((c.mark.column : Int) < indent) then return (s, c)
      plainRuns inFlow indent start fuel gap s c

/-- Reads a plain scalar; further lines have to be indented by `indent` columns. -/
def scanPlain (inFlow : Bool) (indent : Int) (c : Cursor) :
    Except SyntaxError (PlainScalar × Cursor) :=
  plainRuns inFlow indent c.mark (c.rest.length + 1) (.empty false) (.empty c.mark) c

/-! ### Quoted scalars -/

/-- The character that a backslash and another character stand for. -/
def escapedChar? : Char → Option Char
  | '0' => some '\x00'
  | 'a' => some '\x07'
  | 'b' => some '\x08'
  | 't' | '\t' => some '\t'
  | 'n' => some '\n'
  | 'v' => some '\x0b'
  | 'f' => some '\x0c'
  | 'r' => some '\r'
  | 'e' => some '\x1b'
  | ' ' => some ' '
  | '"' => some '"'
  | '/' => some '/'
  | '\\' => some '\\'
  | 'N' => some '\u0085'
  | '_' => some '\u00a0'
  | 'L' => some '\u2028'
  | 'P' => some '\u2029'
  | _ => none

/-- The number of hexadecimal digits that follow a backslash and another character. -/
def escapeLength? : Char → Option Nat
  | 'x' => some 2
  | 'u' => some 4
  | 'U' => some 8
  | _ => none

/-- The character with a code, if there is one. -/
def charOfCode? (n : Nat) : Option Char :=
  if h : n.isValidChar then some (Char.ofNatAux n h) else none

/-- Reads an escape at a backslash that ends no line. -/
def scanEscape (start : Mark) (c : Cursor) : Except SyntaxError (Char × Cursor) :=
  let context := "while parsing a quoted scalar"
  match c.rest[1]? with
  | none => .error (scanError context start "found unknown escape character" c)
  | some char =>
    match escapedChar? char, escapeLength? char with
    | some meant, _ => .ok (meant, c.skipMany 2)
    | none, some length =>
      let c := c.skipMany 2
      match Decimal.read? 16 (c.rest.take length) with
      | some code =>
        if (c.rest.take length).length < length then
          .error (scanError context start "did not find expected hexdecimal number" c)
        else
          match charOfCode? code with
          | some meant => .ok (meant, c.skipMany length)
          | none =>
            .error (scanError context start "found invalid Unicode character escape code" c)
      | none => .error (scanError context start "did not find expected hexdecimal number" c)
    | none, none => .error (scanError context start "found unknown escape character" c)

/-- A run of characters between quotes, and whether an escaped break ends it. -/
structure QuotedRun where
  text : List Char
  broken : Bool

/-- Reads a run of characters between quotes, `fuel` at most. -/
def quotedRun (single : Bool) (start : Mark) :
    Nat → List Char → Cursor → Except SyntaxError (QuotedRun × Cursor)
  | 0, acc, c => .ok (⟨acc.reverse, false⟩, c)
  | fuel + 1, acc, c =>
    match c.rest with
    | [] => .ok (⟨acc.reverse, false⟩, c)
    | char :: _ =>
      if c.blankAt 0 then .ok (⟨acc.reverse, false⟩, c)
      else if single then
        if char == '\'' then
          if c.isAt (· == '\'') 1 then quotedRun single start fuel ('\'' :: acc) (c.skipMany 2)
          else .ok (⟨acc.reverse, false⟩, c)
        else quotedRun single start fuel (char :: acc) c.skip
      else if char == '"' then .ok (⟨acc.reverse, false⟩, c)
      else if char == '\\' then
        if c.isAt isBreak 1 then .ok (⟨acc.reverse, true⟩, c.skip.skipBreak)
        else do
          let (meant, c) ← scanEscape start c
          quotedRun single start fuel (meant :: acc) c
      else quotedRun single start fuel (char :: acc) c.skip

/-- Reads the runs between quotes with the gaps between them, up to the closing quote. -/
def quotedRuns (single : Bool) (start : Mark) :
    Nat → List Char → Cursor → Except SyntaxError (List Char × Cursor)
  | 0, acc, c => .ok (acc, c)
  | fuel + 1, acc, c => do
    let context := "while scanning a quoted scalar"
    if c.seesDocumentMarker then
      throw (scanError context start "found unexpected document indicator" c)
    if c.atEnd then throw (scanError context start "found unexpected end of stream" c)
    let (run, c) ← quotedRun single start c.rest.length [] c
    let acc := acc ++ run.text
    if c.sees (if single then '\'' else '"') then return (acc, c.skip)
    match c.gap 0 run.broken with
    | .error _ => return (acc, c)
    | .ok (gap, c) => quotedRuns single start fuel (acc ++ gap.text) c

/-- Reads a quoted scalar at its opening quote. -/
def scanQuoted (single : Bool) (c : Cursor) : Except SyntaxError (List Char × Cursor) :=
  quotedRuns single c.mark (c.rest.length + 1) [] c.skip

/-! ### Block scalars -/

/-- What becomes of the breaks at the end of a block scalar. -/
inductive Chomping where
  | strip
  | clip
  | keep
  deriving DecidableEq, Repr

/-- What the first line of a block scalar says. -/
structure BlockHeader where
  chomping : Chomping
  /-- The number of columns by which the lines are indented further; none if it is to be found. -/
  increment : Option Nat

/-- Reads a mark for the end of a block scalar. -/
def scanChomping (c : Cursor) : Option Chomping × Cursor :=
  if c.sees '+' then (some .keep, c.skip)
  else if c.sees '-' then (some .strip, c.skip)
  else (none, c)

/-- Reads the number of columns of a block scalar. -/
def scanIncrement (start : Mark) (c : Cursor) : Except SyntaxError (Option Nat × Cursor) :=
  match c.peek with
  | some char =>
    if char.isDigit then
      if char == '0' then
        .error (scanError "while scanning a block scalar" start
          "found an indentation indicator equal to 0" c)
      else .ok (some (char.toNat - '0'.toNat), c.skip)
    else .ok (none, c)
  | none => .ok (none, c)

/-- Reads the first line of a block scalar after its indicator. -/
def scanBlockHeader (start : Mark) (c : Cursor) : Except SyntaxError (BlockHeader × Cursor) := do
  let (before, c) := scanChomping c
  let (increment, c) ← scanIncrement start c
  let (after, c) := if before.isNone && increment.isSome then scanChomping c else (none, c)
  let c := c.skipBlanks.skipComment
  if !c.breaksAt 0 then
    throw (scanError "while scanning a block scalar" start
      "did not find expected comment or line break" c)
  return (⟨(before <|> after).getD .clip, increment⟩, c.skipBreak)

/-- The empty lines before a line of a block scalar. -/
structure BlockGap where
  breaks : List Char
  /-- The place after the last of their breaks. -/
  stop : Mark
  /-- The greatest number of spaces at the beginning of one of them or of the line itself. -/
  deepest : Nat

/-- Moves over spaces before a column, or over all spaces. -/
def Cursor.skipIndent (indent : Option Nat) (c : Cursor) : Cursor :=
  let spaces := (c.takeWhile (· == ' ')).length
  match indent with
  | none => c.skipMany spaces
  | some n => c.skipMany (min spaces (n - c.mark.column))

/-- Reads empty lines and the indentation of the line after them. -/
def blockGap (start : Mark) (indent : Option Nat) :
    Nat → BlockGap → Cursor → Except SyntaxError (BlockGap × Cursor)
  | 0, g, c => .ok (g, c)
  | fuel + 1, g, c =>
    let c := c.skipIndent indent
    let g := { g with deepest := max g.deepest c.mark.column }
    if indent.all (c.mark.column < ·) && c.sees '\t' then
      .error (scanError "while scanning a block scalar" start
        "found a tab character where an indentation space is expected" c)
    else if c.isAt isBreak 0 then
      let next := c.skipBreak
      let breaks := g.breaks ++ c.breakText
      blockGap start indent fuel { g with breaks, stop := next.mark } next
    else .ok (g, c)

/-- Reads empty lines and the indentation of the line after them. -/
def scanBlockGap (start : Mark) (indent : Option Nat) (c : Cursor) :
    Except SyntaxError (BlockGap × Cursor) :=
  blockGap start indent (c.rest.length + 1) ⟨[], c.mark, 0⟩ c

/-- A block scalar as far as it has been read. -/
structure BlockScalar where
  text : List Char
  /-- The break after the last line. -/
  last : List Char
  /-- Whether the last line begins with a blank. -/
  blankBefore : Bool
  gap : BlockGap

/-- The scalar with the breaks before its next line, which begins with a blank or not. -/
def BlockScalar.joined (folded blank : Bool) (s : BlockScalar) : List Char :=
  if folded && s.last.head? == some '\n' && !s.blankBefore && !blank then
    s.text ++ (if s.gap.breaks.isEmpty then [' '] else s.gap.breaks)
  else s.text ++ s.last ++ s.gap.breaks

/-- Reads the lines of a block scalar with a given indentation. -/
def blockLines (folded : Bool) (start : Mark) (indent : Nat) :
    Nat → BlockScalar → Cursor → Except SyntaxError (BlockScalar × Cursor)
  | 0, s, c => .ok (s, c)
  | fuel + 1, s, c => do
    if c.mark.column != indent || c.atEnd then return (s, c)
    let blank := c.isAt isBlank 0
    let line := c.takeWhile (!isBreak ·)
    let text := s.joined folded blank ++ line
    let c := c.skipMany line.length
    let last := c.breakText
    let (gap, c) ← scanBlockGap start (some indent) c.skipBreak
    blockLines folded start indent fuel ⟨text, last, blank, gap⟩ c

/-- The end of a block scalar: its last break and the empty lines after it. -/
def BlockScalar.finish (chomping : Chomping) (s : BlockScalar) : List Char :=
  match chomping with
  | .strip => s.text
  | .clip => s.text ++ s.last
  | .keep => s.text ++ s.last ++ s.gap.breaks

/-- Reads a block scalar at its indicator, inside a collection with the given indentation, and the
place where it ends. -/
def scanBlock (folded : Bool) (outer : Int) (c : Cursor) :
    Except SyntaxError ((List Char × Mark) × Cursor) := do
  let start := c.mark
  let (header, c) ← scanBlockHeader start c.skip
  let given := header.increment.map fun n => (max outer 0).toNat + n
  let (gap, c) ← scanBlockGap start given c
  let indent := given.getD (max (max gap.deepest (outer + 1).toNat) 1)
  let (s, c) ← blockLines folded start indent (c.rest.length + 1) ⟨[], [], false, gap⟩ c
  return ((s.finish header.chomping, s.gap.stop), c)

end Conveyor.Yaml
