import Conveyor.Yaml.Error
import Conveyor.Yaml.Scalar

/-!
# Reading documents

Readers of values from the nodes of a document. An alias is read as the node that it stands for;
nesting and the number of aliases that are followed are limited.
-/

namespace Conveyor.Yaml

/-- What readers know of a document. -/
structure Surroundings where
  /-- The nodes with anchors; of nodes with one number the first counts. -/
  anchors : List (Nat × Node)
  /-- The greatest number of aliases that are followed. -/
  limit : Nat
  /-- The error where the document is cut. -/
  error : SyntaxError

/-- Reads from a document, with the number of aliases followed so far. -/
abbrev Reader (α : Type) := ReaderT Surroundings (StateT Nat (Except ReadError)) α

/-- The greatest nesting of collections. -/
def maxDepth : Nat := 128

namespace Reader

/-- Fails at a value whose place is added later. -/
def wrong (e : ContentError) : Reader α :=
  throw (.wrong e none)

/-- Adds a place to an error that has none. -/
def located (mark : Mark) (trail : Trail) (r : Reader α) : Reader α :=
  tryCatch r fun e => throw (e.located mark trail)

/-- Takes a result that may be an error. -/
def ofExcept (r : Except ContentError α) : Reader α :=
  match r with
  | .ok a => pure a
  | .error e => wrong e

/-- Fails where the document is cut. -/
def cut : Reader α := do
  throw (.notYaml (← read).error)

/-- The node that an alias stands for. -/
def follow (node : Node) : Reader Node := do
  match node with
  | .alias _ number =>
    let s ← read
    modify (· + 1)
    if (← get) > s.limit then throw .tooManyAliases
    match s.anchors.lookup number with
    | some node => return node
    | none => cut
  | node => return node

/-- Goes into a collection that begins at a mark, if it is not nested too deeply. -/
def enter (mark : Mark) (depth : Nat) (inside : Nat → Reader α) : Reader α :=
  match depth with
  | 0 => throw (.tooDeep mark)
  | depth + 1 => inside depth

end Reader

open Reader

/-- The step from a mapping to the value of a key. -/
def Crumb.ofKey : Node → Crumb
  | .scalar _ text _ => .field text
  | _ => .unknown

/-! ### Any value -/

/-- What becomes of the parts of a value of any kind. -/
structure Visitor (α : Type) where
  /-- What is asked for, in messages. -/
  expected : String
  single : Content → α
  sequence : List α → α
  /-- None if a key is repeated. -/
  mapping : List (α × α) → Option α
  /-- None if a tag is an error. -/
  tagged : Option (String → α → Option α)

/-- Fails if a key is repeated. -/
def orRepeated : Option α → Reader α
  | some a => pure a
  | none => throw .repeatedKey

/-- Reads a node with its tag, if it has one of its own and `inTag` does not say that it has been
read. -/
def readTagged (v : Visitor α) (inTag : Bool) (header : Header) (trail : Trail)
    (body : Bool → Reader α) : Reader α :=
  located header.mark trail do
    match if inTag then none else header.ownTag? with
    | none => body inTag
    | some tag =>
      match v.tagged with
      | none => wrong .tagInside
      | some wrap => orRepeated (wrap tag (← body true))

/-- Reads the meaning of a scalar. -/
def readScalar (v : Visitor α) (inTag : Bool) (header : Header) (text : String)
    (style : ScalarStyle) : Reader α := do
  match ← ofExcept (meaning (!inTag) header.tag text style) with
  | .integer i =>
    if fitsWord i then return v.single (.integer i)
    else wrong (.wrongType (.wide i) v.expected)
  | c => return v.single c

/-- Reads a value of any kind. -/
def readAny (v : Visitor α) : Nat → Bool → Trail → Node → Reader α
  | depth, inTag, trail, node => do
    match ← follow node with
    | .scalar header text style =>
      readTagged v inTag header trail fun inTag => readScalar v inTag header text style
    | .sequence header items =>
      readTagged v inTag header trail fun _ =>
        match depth with
        | 0 => throw (.tooDeep header.mark)
        | depth + 1 => do
          let items ← items.zipIdx.mapM fun (item, i) =>
            readAny v depth false (.item i :: trail) item
          return v.sequence items
    | .mapping header entries =>
      readTagged v inTag header trail fun inTag =>
        match depth with
        | 0 => throw (.tooDeep header.mark)
        | depth + 1 => do
          let entries ← entries.mapM fun (key, value) => do
            let keyRead ← readAny v depth inTag trail key
            let value ← readAny v depth false (.ofKey key :: trail) value
            return (keyRead, value)
          orRepeated (v.mapping entries)
    | .alias .. | .broken => cut

/-- Content as what values become; tags of one's own are errors. -/
def contentVisitor : Visitor Content where
  expected := "any value"
  single := id
  sequence := .sequence
  mapping entries := some (.mapping entries)
  tagged := none

/-- Reads content. -/
def readContent (depth : Nat) (trail : Trail) (node : Node) : Reader Content :=
  readAny contentVisitor depth false trail node

/-! ### Values of one kind -/

/-- Fails at a node of a kind that is not asked for. -/
def wrongNode (expected : String) : Node → Reader α
  | .scalar header text style => do
    let c ← ofExcept (meaning true header.tag text style)
    wrong (.wrongType (foundIn c) expected)
  | .sequence .. => wrong (.wrongType .sequence expected)
  | .mapping .. => wrong (.wrongType .mapping expected)
  | .alias .. | .broken => cut

/-- The place where a node begins. -/
def Node.mark : Node → Mark
  | .scalar header _ _ => header.mark
  | .alias mark _ => mark
  | .sequence header _ => header.mark
  | .mapping header _ => header.mark
  | .broken => .zero

/-- Whether a node is a scalar that is not written. -/
def Node.isEmpty : Node → Bool
  | .scalar _ text style => text.isEmpty && style == .plain
  | _ => false

/-- Reads a text, which any scalar is; `expected` says what it is for. -/
def readText (expected : String) (trail : Trail) (node : Node) : Reader String := do
  match ← follow node with
  | .scalar _ text _ => return text
  | node => located node.mark trail (wrongNode expected node)

/-- The natural number that a scalar is. -/
def natural? (header : Header) (text : String) (style : ScalarStyle) : Option Nat :=
  if style = .plain ∨ (style = .literal ∧ header.tag = some (standardTag "int")) then
    if text.startsWith "-" then none else (integer? text.toList).map Int.toNat
  else none

/-- Reads a natural number below a bound; `name` is what the type of such numbers is called. -/
def readNatural (bound : Nat) (name : String) (trail : Trail) (node : Node) : Reader Nat := do
  let node ← follow node
  match node with
  | .scalar header text style =>
    match (natural? header text style).filter (· < bound) with
    | some n => return n
    | none => located header.mark trail (wrongNode name node)
  | node => located node.mark trail (wrongNode name node)

/-- Whether a node stands for nothing. -/
def readAbsent : Node → Reader Bool
  | .scalar header text .plain =>
    match header.tag with
    | some tag =>
      if tag = standardTag "null" then
        if isNullWord text then pure true else wrong (.wrongValue (.string text) "null")
      else pure false
    | none => pure (text.isEmpty || isNullWord text)
  | .broken => cut
  | _ => pure false

/-- Reads a value that may be absent. -/
def readOption (value : Node → Reader α) (node : Node) : Reader (Option α) := do
  let node ← follow node
  if ← readAbsent node then return none
  return some (← value node)

/-- Passes over a value, which has to be whole. -/
def skipValue (node : Node) : Reader Unit :=
  if node.isWhole then pure () else cut

/-- Reads the items of a sequence; an empty scalar has none. -/
def readSequence (depth : Nat) (trail : Trail) (item : Nat → Trail → Node → Reader α)
    (node : Node) : Reader (List α) := do
  let node ← follow node
  located node.mark trail do
    match node with
    | .sequence header items =>
      enter header.mark depth fun depth =>
        items.zipIdx.mapM fun (node, i) => item depth (.item i :: trail) node
    | node => if node.isEmpty then return [] else wrongNode "a sequence" node

/-! ### Documents -/

/-- An error for a document that is cut without one. -/
def SyntaxError.unknown : SyntaxError :=
  ⟨"unknown error", .zero, none, 0⟩

/-- Reads a document that is the only one of its text, with a reader for its outermost node, if it
has one. -/
def Document.read (r : Option Node → Reader α) (d : Document) : Except ReadError α := do
  let surroundings : Surroundings :=
    { anchors := (d.root.map Node.anchors).getD [] |>.reverse
      limit := 100 * (d.root.map Node.size).getD 1
      error := d.error.getD .unknown }
  let (a, _) ← (r d.root).run surroundings |>.run 0
  match d.error with
  | some e => throw (.notYaml e)
  | none => if d.more then throw .severalDocuments else return a

end Conveyor.Yaml
