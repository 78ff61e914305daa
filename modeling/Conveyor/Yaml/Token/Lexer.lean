import Conveyor.Yaml.Token.Name

/-!
# From a text to tokens

A lexer reads a text token by token. Only a colon shows that what came before it was a key, so a
lexer remembers the places where a key may have begun, and puts the tokens for a key and for a
mapping in front of what it has already read.
-/

namespace Conveyor.Yaml

/-- A place where a key may have begun. -/
structure PendingKey where
  /-- Whether nothing else than a key can stand there. -/
  required : Bool
  /-- The number of tokens before it. -/
  number : Nat
  mark : Mark

/-- A text that has been read in part. -/
structure Lexer where
  cursor : Cursor
  /-- The key that may have begun in the innermost collection. -/
  pending : Option PendingKey
  /-- Those of the collections around it, which are flow collections except for the last. -/
  outer : List (Option PendingKey)
  /-- The column of the innermost block collection, or -1. -/
  indent : Int
  /-- The columns of those around it. -/
  indents : List Int
  /-- Whether a key may begin at the cursor. -/
  keyAllowed : Bool
  /-- The tokens, latest first. -/
  tokens : List Token
  count : Nat

namespace Lexer

/-- A lexer at the beginning of a text. -/
def ofText (text : List Char) : Lexer where
  cursor := ⟨text, .zero⟩
  pending := none
  outer := []
  indent := -1
  indents := []
  keyAllowed := true
  tokens := [⟨.streamStart, .zero, .zero⟩]
  count := 1

/-- Whether the lexer is inside a flow collection. -/
def inFlow (l : Lexer) : Bool :=
  !l.outer.isEmpty

/-- The column of the cursor. -/
def column (l : Lexer) : Int :=
  l.cursor.mark.column

/-- Adds a token. -/
def push (l : Lexer) (t : Token) : Lexer :=
  { l with tokens := t :: l.tokens, count := l.count + 1 }

/-- Adds a token behind the first `number` ones. -/
def insert (l : Lexer) (number : Nat) (t : Token) : Lexer :=
  let later := l.count - number
  { l with tokens := l.tokens.take later ++ t :: l.tokens.drop later, count := l.count + 1 }

/-- Adds a token that begins at one cursor and ends at another one, where the lexer goes on. -/
def pushTo (l : Lexer) (kind : TokenKind) (c : Cursor) : Lexer :=
  { l.push ⟨kind, l.cursor.mark, c.mark⟩ with cursor := c }

/-- Adds a token of a number of characters. -/
def pushMany (l : Lexer) (kind : TokenKind) (n : Nat) : Lexer :=
  l.pushTo kind (l.cursor.skipMany n)

/-! ### Keys -/

/-- The error for a key without a colon. -/
def keyError (l : Lexer) (k : PendingKey) : SyntaxError :=
  scanError "while scanning a simple key" k.mark "could not find expected ':'" l.cursor

/-- Whether what follows the cursor is too far from the beginning of a key to belong to it. -/
def isStale (l : Lexer) (k : PendingKey) : Bool :=
  k.mark.line < l.cursor.mark.line || k.mark.index + 1024 < l.cursor.mark.index

/-- The keys that may have begun, without those that have not. -/
def dropStale (l : Lexer) : Except SyntaxError Lexer :=
  let stale := (l.pending :: l.outer).reverse.filterMap fun k => k.filter l.isStale
  match stale.find? (·.required) with
  | some k => .error (l.keyError k)
  | none =>
    let fresh (k : Option PendingKey) := k.filter (!l.isStale ·)
    .ok { l with pending := fresh l.pending, outer := l.outer.map fresh }

/-- Forgets the key that may have begun in the innermost collection. -/
def dropPending (l : Lexer) : Except SyntaxError Lexer :=
  match l.pending.filter (·.required) with
  | some k => .error (l.keyError k)
  | none => .ok { l with pending := none }

/-- Remembers that a key may begin at the cursor. -/
def mayBeKey (l : Lexer) : Except SyntaxError Lexer :=
  if l.keyAllowed then do
    let required := !l.inFlow && decide (l.indent = l.column)
    let key : PendingKey := ⟨required, l.count, l.cursor.mark⟩
    let l ← l.dropPending
    return { l with pending := some key }
  else .ok l

/-- The tokens that no later key can change, first to last. -/
def certain (l : Lexer) : List Token :=
  let numbers := (l.pending :: l.outer).filterMap (·.map PendingKey.number)
  l.tokens.reverse.take (numbers.foldl min l.count)

/-! ### Indentation -/

/-- Ends the block collections that are to the right of a column. -/
def endBlocks (column : Int) (l : Lexer) : Lexer :=
  if l.inFlow then l
  else
    let ended := (l.indent :: l.indents).takeWhile (column < ·)
    let rest := (l.indent :: l.indents).drop ended.length
    let mark := l.cursor.mark
    let l := ended.foldl (fun l _ => l.push ⟨.blockEnd, mark, mark⟩) l
    { l with indent := rest.headD (-1), indents := rest.tail }

/-- Begins a block collection at a column, unless one is there, behind the first `number` tokens. -/
def beginBlock (kind : TokenKind) (number : Nat) (mark : Mark) (l : Lexer) : Lexer :=
  if l.inFlow || !decide (l.indent < mark.column) then l
  else
    let l := { l with indent := mark.column, indents := l.indent :: l.indents }
    l.insert number ⟨kind, mark, mark⟩

/-- Begins a block collection at the cursor, where an indicator needs one. -/
def beginBlockHere (kind : TokenKind) (problem : String) (l : Lexer) : Except SyntaxError Lexer :=
  if l.inFlow then .ok l
  else if l.keyAllowed then .ok (l.beginBlock kind l.count l.cursor.mark)
  else .error ⟨problem, l.cursor.mark, none, 0⟩

/-! ### The tokens -/

/-- Ends the text. -/
def readEnd (l : Lexer) : Except SyntaxError Lexer := do
  let mark := l.cursor.mark
  let mark : Mark := if mark.column = 0 then mark else ⟨mark.index, mark.line + 1, 0⟩
  let l := endBlocks (-1) { l with cursor := { l.cursor with mark } }
  let l ← l.dropPending
  return { l with keyAllowed := false }.push ⟨.streamEnd, mark, mark⟩

/-- Ends all collections, before a directive or a document. -/
def endAll (l : Lexer) : Except SyntaxError Lexer := do
  let l ← (endBlocks (-1) l).dropPending
  return { l with keyAllowed := false }

/-- Reads a directive. -/
def readDirective (l : Lexer) : Except SyntaxError Lexer := do
  let l ← l.endAll
  let ((kind, stop), c) ← scanDirective l.cursor
  return { l.push ⟨kind, l.cursor.mark, stop⟩ with cursor := c }

/-- Reads the beginning or the end of a document. -/
def readDocumentMarker (kind : TokenKind) (l : Lexer) : Except SyntaxError Lexer := do
  let l ← l.endAll
  return l.pushMany kind 3

/-- Reads an opening bracket. -/
def readOpening (kind : TokenKind) (l : Lexer) : Except SyntaxError Lexer := do
  let l ← l.mayBeKey
  let l := { l with pending := none, outer := l.pending :: l.outer, keyAllowed := true }
  return l.pushMany kind 1

/-- Reads a closing bracket. -/
def readClosing (kind : TokenKind) (l : Lexer) : Except SyntaxError Lexer := do
  let l ← l.dropPending
  let l :=
    match l.outer with
    | [] => l
    | key :: outer => { l with pending := key, outer }
  return { l with keyAllowed := false }.pushMany kind 1

/-- Reads a comma. -/
def readFlowEntry (l : Lexer) : Except SyntaxError Lexer := do
  let l ← l.dropPending
  return { l with keyAllowed := true }.pushMany .flowEntry 1

/-- Reads the dash before an entry. -/
def readBlockEntry (l : Lexer) : Except SyntaxError Lexer := do
  let l ← l.beginBlockHere .blockSequenceStart
    "block sequence entries are not allowed in this context"
  let l ← l.dropPending
  return { l with keyAllowed := true }.pushMany .blockEntry 1

/-- Reads the question mark before a key. -/
def readKey (l : Lexer) : Except SyntaxError Lexer := do
  let l ← l.beginBlockHere .blockMappingStart "mapping keys are not allowed in this context"
  let l ← l.dropPending
  return { l with keyAllowed := !l.inFlow }.pushMany .key 1

/-- Reads the colon before a value. -/
def readValue (l : Lexer) : Except SyntaxError Lexer := do
  match l.pending with
  | some k =>
    let l := l.insert k.number ⟨.key, k.mark, k.mark⟩
    let l := l.beginBlock .blockMappingStart k.number k.mark
    return { l with pending := none, keyAllowed := false }.pushMany .value 1
  | none =>
    let l ← l.beginBlockHere .blockMappingStart "mapping values are not allowed in this context"
    return { l with keyAllowed := !l.inFlow }.pushMany .value 1

/-- Reads something that a key may begin with. -/
def readInline (scan : Cursor → Except SyntaxError (TokenKind × Cursor)) (l : Lexer) :
    Except SyntaxError Lexer := do
  let l ← l.mayBeKey
  let (kind, c) ← scan l.cursor
  return { l with keyAllowed := false }.pushTo kind c

/-- Reads the name of an alias. -/
def readAlias (l : Lexer) : Except SyntaxError Lexer :=
  l.readInline fun c => do
    let (name, c) ← scanAnchor "while scanning an alias" c
    return (.alias name, c)

/-- Reads the name of an anchor. -/
def readAnchor (l : Lexer) : Except SyntaxError Lexer :=
  l.readInline fun c => do
    let (name, c) ← scanAnchor "while scanning an anchor" c
    return (.anchor name, c)

/-- Reads a tag. -/
def readTag (l : Lexer) : Except SyntaxError Lexer :=
  l.readInline fun c => do
    let ((handle, suffix), c) ← scanTag l.inFlow c
    return (.tag handle suffix, c)

/-- Reads a scalar between quotes. -/
def readQuoted (single : Bool) (l : Lexer) : Except SyntaxError Lexer :=
  l.readInline fun c => do
    let (text, c) ← scanQuoted single c
    return (.scalar (String.ofList text) (if single then .singleQuoted else .doubleQuoted), c)

/-- Reads a scalar of several lines. -/
def readBlockScalar (folded : Bool) (l : Lexer) : Except SyntaxError Lexer := do
  let l ← l.dropPending
  let ((text, stop), c) ← scanBlock folded l.indent l.cursor
  let kind := .scalar (String.ofList text) (if folded then .folded else .literal)
  return { l.push ⟨kind, l.cursor.mark, stop⟩ with cursor := c, keyAllowed := true }

/-- Reads a plain scalar. -/
def readPlain (l : Lexer) : Except SyntaxError Lexer := do
  let l ← l.mayBeKey
  let (s, c) ← scanPlain l.inFlow (l.indent + 1) l.cursor
  let token : Token := ⟨.scalar (String.ofList s.text) .plain, l.cursor.mark, s.stop⟩
  return { l.push token with cursor := c, keyAllowed := s.broken }

/-- Whether a plain scalar begins at the cursor. -/
def startsPlain (l : Lexer) : Bool :=
  match l.cursor.peek with
  | none => false
  | some c =>
    (!isBlank c && !isBreak c && !"-?:,[]\x7b\x7d#&*!|>'\"%@\x60".toList.contains c)
      || (c == '-' && !l.cursor.isAt isBlank 1)
      || (!l.inFlow && (c == '?' || c == ':') && !l.cursor.blankAt 1)

/-- Reads the token at the cursor. -/
def readToken (l : Lexer) : Except SyntaxError Lexer :=
  let c := l.cursor
  let alone := l.inFlow || c.blankAt 1
  match c.peek with
  | none => l.readEnd
  | some char =>
    if char == '%' && c.mark.column = 0 then l.readDirective
    else if c.seesMarker '-' then l.readDocumentMarker .documentStart
    else if c.seesMarker '.' then l.readDocumentMarker .documentEnd
    else if char == '[' then l.readOpening .flowSequenceStart
    else if char == '\x7b' then l.readOpening .flowMappingStart
    else if char == ']' then l.readClosing .flowSequenceEnd
    else if char == '\x7d' then l.readClosing .flowMappingEnd
    else if char == ',' then l.readFlowEntry
    else if char == '-' && c.blankAt 1 then l.readBlockEntry
    else if char == '?' && alone then l.readKey
    else if char == ':' && alone then l.readValue
    else if char == '*' then l.readAlias
    else if char == '&' then l.readAnchor
    else if char == '!' then l.readTag
    else if char == '|' && !l.inFlow then l.readBlockScalar false
    else if char == '>' && !l.inFlow then l.readBlockScalar true
    else if char == '\'' then l.readQuoted true
    else if char == '"' then l.readQuoted false
    else if l.startsPlain then l.readPlain
    else
      .error (scanError "while scanning for the next token" c.mark
        "found character that cannot start any token" c)

/-- Moves to the next token, over blanks, comments and breaks; a tab counts as a blank where no key
may begin. -/
def skipGap : Nat → Lexer → Lexer
  | 0, l => l
  | fuel + 1, l =>
    let tabs := l.inFlow || !l.keyAllowed
    let c := l.cursor
    let c := if c.mark.index = 0 && c.sees '\ufeff' then c.skip else c
    let c := (c.skipWhile fun char => char == ' ' || (tabs && char == '\t')).skipComment
    if c.isAt isBreak 0 then
      skipGap fuel { l with cursor := c.skipBreak, keyAllowed := l.keyAllowed || !l.inFlow }
    else { l with cursor := c }

/-- Reads the next token. -/
def next (l : Lexer) : Except SyntaxError Lexer := do
  let l ← (l.skipGap (l.cursor.rest.length + 1)).dropStale
  (endBlocks l.column l).readToken

/-- Whether the end of the text has been read. -/
def isDone (l : Lexer) : Bool :=
  match l.tokens with
  | ⟨.streamEnd, _, _⟩ :: _ => true
  | _ => false

/-- Reads `fuel` tokens at most. -/
def run : Nat → Lexer → TokenStream
  | 0, l => ⟨l.certain, none⟩
  | fuel + 1, l =>
    match l.dropStale with
    | .error e => ⟨l.certain, some e⟩
    | .ok l =>
      match l.next with
      | .error e => ⟨l.certain, some e⟩
      | .ok l => if l.isDone then ⟨l.tokens.reverse, none⟩ else run fuel l

end Lexer

/-- The place in bytes of the first character that may not stand in a text. -/
def forbiddenOffset? : Nat → List Char → Option Nat
  | _, [] => none
  | n, c :: rest => if isAllowed c then forbiddenOffset? (n + c.utf8Size) rest else some n

/-- The tokens of a text. -/
def TokenStream.ofText (text : String) : TokenStream :=
  match forbiddenOffset? 0 text.toList with
  | some offset =>
    ⟨[⟨.streamStart, .zero, .zero⟩],
      some ⟨"control characters are not allowed", .zero, none, offset⟩⟩
  | none => Lexer.run (text.length + 1) (.ofText text.toList)

end Conveyor.Yaml
