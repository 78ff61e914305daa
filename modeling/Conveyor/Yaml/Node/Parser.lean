import Conveyor.Yaml.Node
import Conveyor.Yaml.Token.Lexer

/-!
# From tokens to nodes

A node is read by looking at the next token. Where there is none, or one that cannot stand there,
the tree is cut, and so is what is left of the text.
-/

namespace Conveyor.Yaml

/-- What is left of a text while a document is read. -/
structure Remainder where
  tokens : List Token
  /-- The error behind the tokens. -/
  error : Option SyntaxError
  /-- What the handles of tags stand for. -/
  handles : List (String × String)
  /-- The numbers of the anchors so far, latest first. -/
  anchors : List (String × Nat)

namespace Remainder

/-- The remainder of a text that ends with an error here. -/
def cut (r : Remainder) (e : SyntaxError) : Remainder :=
  { r with tokens := [], error := some e }

/-- The remainder without its first token. -/
def skip (r : Remainder) : Remainder :=
  { r with tokens := r.tokens.tail }

/-- Whether the next token is none of the given ones, or is missing. -/
def isNone (r : Remainder) (kinds : List TokenKind) : Bool :=
  match r.tokens with
  | [] => true
  | t :: _ => !kinds.contains t.kind

/-- Gives an anchor its number, which is the number of the names so far. -/
def addAnchor (name : Option String) (r : Remainder) : Option Nat × Remainder :=
  match name with
  | none => (none, r)
  | some name =>
    let number := r.anchors.length
    let others := r.anchors.filter fun (other, _) => other != name
    (some number, { r with anchors := (name, number) :: others })

end Remainder

/-- An error at a token, in something that began at a mark. -/
def tokenError (context : String) (start : Mark) (problem : String) (t : Token) : SyntaxError :=
  ⟨problem, t.start, some (context, start), 0⟩

/-! ### What stands before a node -/

/-- The anchor and the tag before a node as they are written. -/
structure Properties where
  start : Option Mark
  anchor : Option String
  tag : Option (String × String × Mark)

/-- Reads the anchor and the tag before a node, in any order. -/
def takeProperties (r : Remainder) : Properties × Remainder :=
  match r.tokens with
  | ⟨.anchor name, start, _⟩ :: ⟨.tag handle suffix, mark, _⟩ :: tokens =>
    (⟨some start, some name, some (handle, suffix, mark)⟩, { r with tokens })
  | ⟨.tag handle suffix, mark, _⟩ :: ⟨.anchor name, _, _⟩ :: tokens =>
    (⟨some mark, some name, some (handle, suffix, mark)⟩, { r with tokens })
  | ⟨.anchor name, start, _⟩ :: tokens => (⟨some start, some name, none⟩, { r with tokens })
  | ⟨.tag handle suffix, mark, _⟩ :: tokens =>
    (⟨some mark, none, some (handle, suffix, mark)⟩, { r with tokens })
  | tokens => (⟨none, none, none⟩, { r with tokens })

/-- The full name of a tag; an error if its handle stands for nothing. -/
def fullTag (handles : List (String × String)) (start : Mark) :
    Option (String × String × Mark) → Except SyntaxError (Option String)
  | none => .ok none
  | some (handle, suffix, mark) =>
    if handle.isEmpty then .ok (some suffix)
    else
      match handles.lookup handle with
      | some beginning => .ok (some (beginning ++ suffix))
      | none =>
        .error ⟨"found undefined tag handle", mark, some ("while parsing a node", start), 0⟩

/-! ### Nodes -/

/-- Where a node stands, which decides how it may be written. -/
inductive Place where
  /-- In a flow collection. -/
  | flow
  /-- In a block collection or at the top. -/
  | block
  /-- In a block mapping, where a sequence may be as far to the left as its key. -/
  | value
  deriving DecidableEq

mutual

/-- Reads a node; `fuel` is more than the number of steps that it takes. -/
def readNode : Nat → Place → Remainder → Node × Remainder
  | 0, _, r => (.broken, r)
  | fuel + 1, place, r =>
    match r.tokens with
    | ⟨.alias name, mark, _⟩ :: _ =>
      match r.anchors.lookup name with
      | some number => (.alias mark number, r.skip)
      | none => (.broken, r.cut ⟨"unknown anchor", mark, none, 0⟩)
    | _ =>
      let (p, r) := takeProperties r
      match r.tokens with
      | [] => (.broken, r)
      | t :: _ =>
        let start := p.start.getD t.start
        match fullTag r.handles start p.tag with
        | .error e => (.broken, r.cut e)
        | .ok tag =>
          let (anchor, marked) := r.addAnchor p.anchor
          let header : Header := ⟨start, anchor, tag⟩
          match t.kind with
          | .scalar text style =>
            let tag := if tag = some "!" then none else tag
            (.scalar { header with tag } text style, marked.skip)
          | .flowSequenceStart =>
            let (items, r) := readFlowItems fuel start true marked.skip
            (.sequence header items, r)
          | .flowMappingStart =>
            let (entries, r) := readFlowEntries fuel start true marked.skip
            (.mapping header entries, r)
          | kind =>
            if kind = .blockEntry ∧ place = .value then
              let (items, r) := readIndentless fuel marked
              (.sequence header items, r)
            else if kind = .blockSequenceStart ∧ place ≠ .flow then
              let (items, r) := readBlockItems fuel t.start marked.skip
              (.sequence header items, r)
            else if kind = .blockMappingStart ∧ place ≠ .flow then
              let (entries, r) := readBlockEntries fuel t.start marked.skip
              (.mapping header entries, r)
            else if p.start.isSome then (.empty header, marked)
            else
              let context :=
                if place = .flow then "while parsing a flow node" else "while parsing a block node"
              (.broken, r.cut (tokenError context start "did not find expected node content" t))

/-- Reads a node, or none at a mark if one of the given tokens comes next. -/
def readNodeUnless : Nat → List TokenKind → Place → Mark → Remainder → Node × Remainder
  | 0, _, _, _, r => (.broken, r)
  | fuel + 1, kinds, place, mark, r =>
    match r.tokens with
    | [] => (.broken, r)
    | _ => if r.isNone kinds then readNode fuel place r else (.empty (.at mark), r)

/-- Reads the items of a block sequence and its end. -/
def readBlockItems : Nat → Mark → Remainder → List Node × Remainder
  | 0, _, r => ([.broken], r)
  | fuel + 1, start, r =>
    match r.tokens with
    | [] => ([.broken], r)
    | t :: _ =>
      match t.kind with
      | .blockEntry =>
        let (item, r) := readNodeUnless fuel [.blockEntry, .blockEnd] .block t.stop r.skip
        let (items, r) := readBlockItems fuel start r
        (item :: items, r)
      | .blockEnd => ([], r.skip)
      | _ =>
        let e := tokenError "while parsing a block collection" start
          "did not find expected '-' indicator" t
        ([.broken], r.cut e)

/-- Reads the items of a block sequence that ends without a token of its own. -/
def readIndentless : Nat → Remainder → List Node × Remainder
  | 0, r => ([.broken], r)
  | fuel + 1, r =>
    match r.tokens with
    | [] => ([.broken], r)
    | t :: _ =>
      match t.kind with
      | .blockEntry =>
        let ends := [.blockEntry, .key, .value, .blockEnd]
        let (item, r) := readNodeUnless fuel ends .block t.stop r.skip
        let (items, r) := readIndentless fuel r
        (item :: items, r)
      | _ => ([], r)

/-- Reads the entries of a block mapping and its end. -/
def readBlockEntries : Nat → Mark → Remainder → List (Node × Node) × Remainder
  | 0, _, r => ([(.broken, .broken)], r)
  | fuel + 1, start, r =>
    match r.tokens with
    | [] => ([(.broken, .broken)], r)
    | t :: _ =>
      match t.kind with
      | .key =>
        let (key, r) := readNodeUnless fuel [.key, .value, .blockEnd] .value t.stop r.skip
        let (value, r) := readBlockValue fuel r
        let (entries, r) := readBlockEntries fuel start r
        ((key, value) :: entries, r)
      | .blockEnd => ([], r.skip)
      | _ =>
        let e := tokenError "while parsing a block mapping" start "did not find expected key" t
        ([(.broken, .broken)], r.cut e)

/-- Reads the value of an entry of a block mapping. -/
def readBlockValue : Nat → Remainder → Node × Remainder
  | 0, r => (.broken, r)
  | fuel + 1, r =>
    match r.tokens with
    | [] => (.broken, r)
    | t :: _ =>
      if t.kind = .value then
        readNodeUnless fuel [.key, .value, .blockEnd] .value t.stop r.skip
      else (.empty (.at t.start), r)

/-- Reads the items of a flow sequence and its end. -/
def readFlowItems : Nat → Mark → Bool → Remainder → List Node × Remainder
  | 0, _, _, r => ([.broken], r)
  | fuel + 1, start, first, r =>
    match r.tokens with
    | [] => ([.broken], r)
    | t :: _ =>
      if t.kind = .flowSequenceEnd then ([], r.skip)
      else if !first && t.kind != .flowEntry then
        let e := tokenError "while parsing a flow sequence" start
          "did not find expected ',' or ']'" t
        ([.broken], r.cut e)
      else
        let r := if first then r else r.skip
        match r.tokens with
        | [] => ([.broken], r)
        | t :: _ =>
          match t.kind with
          | .flowSequenceEnd => ([], r.skip)
          | .key =>
            let (entries, r) := readFlowPair fuel r.skip
            let (items, r) := readFlowItems fuel start false r
            (.mapping (.at t.start) entries :: items, r)
          | _ =>
            let (item, r) := readNode fuel .flow r
            let (items, r) := readFlowItems fuel start false r
            (item :: items, r)

/-- Reads the only entry of a mapping that is an item of a flow sequence. A token that ends the key
before it has begun is passed over. -/
def readFlowPair : Nat → Remainder → List (Node × Node) × Remainder
  | 0, r => ([(.broken, .broken)], r)
  | fuel + 1, r =>
    match r.tokens with
    | [] => ([(.broken, .broken)], r)
    | t :: _ =>
      let (key, r) :=
        if r.isNone [.value, .flowEntry, .flowSequenceEnd] then readNode fuel .flow r
        else (.empty (.at t.stop), r.skip)
      let (value, r) := readFlowValue fuel [.flowEntry, .flowSequenceEnd] r
      match r.tokens with
      | [] => ([(key, value), (.broken, .broken)], r)
      | _ => ([(key, value)], r)

/-- Reads the value of an entry of a flow mapping, which may be left out. -/
def readFlowValue : Nat → List TokenKind → Remainder → Node × Remainder
  | 0, _, r => (.broken, r)
  | fuel + 1, ends, r =>
    match r.tokens with
    | [] => (.broken, r)
    | t :: _ =>
      if t.kind = .value then
        let r := r.skip
        match r.tokens with
        | [] => (.broken, r)
        | t :: _ => readNodeUnless fuel ends .flow t.start r
      else (.empty (.at t.start), r)

/-- Reads the entries of a flow mapping and its end. -/
def readFlowEntries : Nat → Mark → Bool → Remainder → List (Node × Node) × Remainder
  | 0, _, _, r => ([(.broken, .broken)], r)
  | fuel + 1, start, first, r =>
    match r.tokens with
    | [] => ([(.broken, .broken)], r)
    | t :: _ =>
      if t.kind = .flowMappingEnd then ([], r.skip)
      else if !first && t.kind != .flowEntry then
        let e := tokenError "while parsing a flow mapping" start
          "did not find expected ',' or '\x7d'" t
        ([(.broken, .broken)], r.cut e)
      else
        let r := if first then r else r.skip
        match r.tokens with
        | [] => ([(.broken, .broken)], r)
        | t :: _ =>
          match t.kind with
          | .flowMappingEnd => ([], r.skip)
          | .key =>
            let (entry, r) := readFlowEntry fuel r.skip
            let (entries, r) := readFlowEntries fuel start false r
            (entry :: entries, r)
          | _ =>
            let (key, r) := readNode fuel .flow r
            let value :=
              match r.tokens with
              | [] => .broken
              | t :: _ => .empty (.at t.start)
            let (entries, r) := readFlowEntries fuel start false r
            ((key, value) :: entries, r)

/-- Reads an entry of a flow mapping after the token for its key. -/
def readFlowEntry : Nat → Remainder → (Node × Node) × Remainder
  | 0, r => ((.broken, .broken), r)
  | fuel + 1, r =>
    match r.tokens with
    | [] => ((.broken, .broken), r)
    | t :: _ =>
      let (key, r) := readNodeUnless fuel [.value, .flowEntry, .flowMappingEnd] .flow t.start r
      let (value, r) := readFlowValue fuel [.flowEntry, .flowMappingEnd] r
      ((key, value), r)

end

/-! ### Documents -/

/-- The handles that every document has. -/
def standardHandles : List (String × String) :=
  [("!", "!"), ("!!", "tag:yaml.org,2002:")]

/-- Reads the directives before a document. -/
def readDirectives : Nat → Bool → Remainder → Except SyntaxError Remainder
  | 0, _, r => .ok r
  | fuel + 1, seen, r =>
    match r.tokens with
    | ⟨.version major minor, mark, _⟩ :: _ =>
      if seen then .error ⟨"found duplicate %YAML directive", mark, none, 0⟩
      else if major = 1 ∧ (minor = 1 ∨ minor = 2) then readDirectives fuel true r.skip
      else .error ⟨"found incompatible YAML document", mark, none, 0⟩
    | ⟨.tagDirective handle text, mark, _⟩ :: _ =>
      if (r.handles.lookup handle).isSome then
        .error ⟨"found duplicate %TAG directive", mark, none, 0⟩
      else
        readDirectives fuel seen { r with handles := r.handles ++ [(handle, text)] }.skip
    | _ => .ok { r with handles := r.handles ++ standardHandles }

namespace Document

/-- A document with an error before its outermost node. -/
def failed (e : Option SyntaxError) : Document :=
  ⟨some .broken, .zero, e, false⟩

/-- Completes a document at what follows its outermost node. -/
def finish (root : Node) (r : Remainder) : Document :=
  let rest := r.tokens.dropWhile (·.kind == .documentEnd)
  let ends := rest.map Token.kind == [.streamEnd]
  ⟨some root, .zero, if r.tokens.isEmpty then r.error else none, !ends⟩

/-- Reads the outermost node of a document. -/
def readRoot (r : Remainder) : Document :=
  let (root, r) := readNode (4 * r.tokens.length + 8) .block r
  finish root r

/-- Reads a document that begins with directives or a marker. -/
def readExplicit (r : Remainder) : Document :=
  match readDirectives (r.tokens.length + 1) false r with
  | .error e => failed (some e)
  | .ok r =>
    match r.tokens with
    | [] => failed r.error
    | ⟨.documentStart, _, _⟩ :: tokens =>
      let r := { r with tokens }
      match tokens with
      | [] => failed r.error
      | t :: _ =>
        match t.kind with
        | .version .. | .tagDirective .. | .documentStart | .documentEnd | .streamEnd =>
          finish (.empty (.at t.start)) r
        | _ => readRoot r
    | t :: _ => failed (some ⟨"did not find expected <document start>", t.start, none, 0⟩)

/-- The first document of a text. -/
def ofTokens (s : TokenStream) : Document :=
  let r : Remainder := ⟨s.tokens.tail, s.error, [], []⟩
  match r.tokens with
  | [] => failed r.error
  | t :: _ =>
    match t.kind with
    | .streamEnd => ⟨none, t.start, none, false⟩
    | .version .. | .tagDirective .. | .documentStart => readExplicit r
    | _ => readRoot { r with handles := standardHandles }

/-- The first document of a text. -/
def ofText (text : String) : Document :=
  ofTokens (.ofText text)

end Document

end Conveyor.Yaml
