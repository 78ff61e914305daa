import Conveyor.Yaml.Token

/-!
# Reading a text

A cursor is a place in a text with what follows it. The functions move it over characters, blanks,
line breaks and comments.
-/

namespace Conveyor.Yaml

/-- Whether a character ends a line. -/
def isBreak (c : Char) : Bool :=
  c == '\n' || c == '\r' || c.toNat == 0x85 || c.toNat == 0x2028 || c.toNat == 0x2029

/-- Whether a character is a space or a tab. -/
def isBlank (c : Char) : Bool :=
  c == ' ' || c == '\t'

/-- Whether a character may stand in the name of an anchor or a handle. -/
def isWordChar (c : Char) : Bool :=
  c.isAlphanum || c == '_' || c == '-'

/-- Whether a character may stand in a text. -/
def isAllowed (c : Char) : Bool :=
  let n := c.toNat
  n == 9 || n == 10 || n == 13 || (0x20 ≤ n && n ≤ 0x7E) || n == 0x85 || (0xA0 ≤ n && n ≤ 0xFFFD)
    || 0x10000 ≤ n

/-- A place in a text, and what follows it. -/
structure Cursor where
  rest : List Char
  mark : Mark

namespace Cursor

/-- The next character. -/
def peek (c : Cursor) : Option Char :=
  c.rest.head?

/-- Whether the next character is a given one. -/
def sees (c : Cursor) (char : Char) : Bool :=
  c.peek == some char

/-- Whether nothing follows. -/
def atEnd (c : Cursor) : Bool :=
  c.rest.isEmpty

/-- Whether there is a character with a property `n` characters further on. -/
def isAt (c : Cursor) (p : Char → Bool) (n : Nat) : Bool :=
  (c.rest[n]?).any p

/-- Whether there is a break or the end `n` characters further on. -/
def breaksAt (c : Cursor) (n : Nat) : Bool :=
  (c.rest[n]?).all isBreak

/-- Whether there is a blank, a break or the end `n` characters further on. -/
def blankAt (c : Cursor) (n : Nat) : Bool :=
  (c.rest[n]?).all fun c => isBlank c || isBreak c

/-- Moves over a character that is no break. -/
def skip (c : Cursor) : Cursor :=
  match c.rest with
  | [] => c
  | _ :: rest => ⟨rest, { c.mark with index := c.mark.index + 1, column := c.mark.column + 1 }⟩

/-- Moves over a number of characters that are no breaks. -/
def skipMany : Nat → Cursor → Cursor
  | 0, c => c
  | n + 1, c => skipMany n c.skip

/-- Moves over a break. -/
def skipBreak (c : Cursor) : Cursor :=
  match c.rest with
  | '\r' :: '\n' :: rest => ⟨rest, ⟨c.mark.index + 2, c.mark.line + 1, 0⟩⟩
  | _ :: rest => ⟨rest, ⟨c.mark.index + 1, c.mark.line + 1, 0⟩⟩
  | [] => c

/-- The characters that a break adds to a scalar. -/
def breakText (c : Cursor) : List Char :=
  match c.rest with
  | [] => []
  | b :: _ =>
    if b.toNat == 0x2028 || b.toNat == 0x2029 then [b]
    else if isBreak b then ['\n']
    else []

/-- Moves over the characters with a property, of which breaks have none. -/
def skipWhile (p : Char → Bool) (c : Cursor) : Cursor :=
  skipMany (c.rest.takeWhile p).length c

/-- The characters with a property that come next. -/
def takeWhile (p : Char → Bool) (c : Cursor) : List Char :=
  c.rest.takeWhile p

/-- Moves over blanks. -/
def skipBlanks (c : Cursor) : Cursor :=
  c.skipWhile isBlank

/-- Moves over a comment, up to the end of its line. -/
def skipComment (c : Cursor) : Cursor :=
  if c.sees '#' then c.skipWhile (!isBreak ·) else c

/-- Whether the cursor is at a marker of three characters that begins or ends a document. -/
def seesMarker (c : Cursor) (char : Char) : Bool :=
  c.mark.column = 0 && c.isAt (· == char) 0 && c.isAt (· == char) 1 && c.isAt (· == char) 2
    && c.blankAt 3

/-- Whether the cursor is at the beginning or the end of a document. -/
def seesDocumentMarker (c : Cursor) : Bool :=
  c.seesMarker '-' || c.seesMarker '.'

end Cursor

/-! ### Gaps inside scalars -/

/-- The blanks and breaks between two words of a scalar. -/
structure Gap where
  /-- The blanks, if there is no break. -/
  blanks : List Char
  /-- Whether there is a break. -/
  broken : Bool
  /-- The first break. -/
  first : List Char
  /-- The other breaks. -/
  others : List Char

namespace Gap

/-- No gap; it may begin after a break that adds nothing. -/
def empty (broken : Bool) : Gap := ⟨[], broken, [], []⟩

/-- The characters that a gap adds to a scalar: a single break is a space, and of several ones the
first is left out. -/
def text (g : Gap) : List Char :=
  if g.broken then
    if g.first = ['\n'] then (if g.others.isEmpty then [' '] else g.others)
    else g.first ++ g.others
  else g.blanks

/-- The gap with a break more. -/
def addBreak (g : Gap) (text : List Char) : Gap :=
  if g.broken then { g with others := g.others ++ text }
  else { g with blanks := [], broken := true, first := text }

/-- The gap with a blank more; after a break it adds nothing. -/
def addBlank (g : Gap) (c : Char) : Gap :=
  if g.broken then g else { g with blanks := g.blanks ++ [c] }

end Gap

/-- Moves over a gap, for as many characters as `fuel` says at most; a tab before the column `limit`
of a line is a fault. -/
def Cursor.gapFor (limit : Int) : Nat → Gap → Cursor → Except Mark (Gap × Cursor)
  | 0, g, c => .ok (g, c)
  | fuel + 1, g, c =>
    match c.rest with
    | [] => .ok (g, c)
    | char :: _ =>
      if isBlank char then
        if g.broken && decide ((c.mark.column : Int) < limit) && char == '\t' then .error c.mark
        else gapFor limit fuel (g.addBlank char) c.skip
      else if isBreak char then gapFor limit fuel (g.addBreak c.breakText) c.skipBreak
      else .ok (g, c)

/-- Moves over a gap. -/
def Cursor.gap (limit : Int) (broken : Bool) (c : Cursor) : Except Mark (Gap × Cursor) :=
  gapFor limit c.rest.length (.empty broken) c

end Conveyor.Yaml
