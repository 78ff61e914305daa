import Conveyor.Content.Basic

/-!
# Reading content

Readers of texts, words, numbers, documents and records from content. A record is read from a
mapping by the names of its fields, in any order and with other entries passed over, or from a
sequence of its fields in order.
-/

namespace Conveyor

namespace Content

/-! ### Single values -/

/-- Reads a text. -/
def toText : Content → Except ContentError String
  | .string s => .ok s
  | c => c.mismatch "a string"

/-- Reads a natural number below a bound; `name` is what the type of such numbers is called. -/
def toNatural (bound : Nat) (name : String) : Content → Except ContentError Nat
  | .integer i =>
    if 0 ≤ i ∧ i < bound then .ok i.toNat else .error (.wrongValue (.integer i) name)
  | c => c.mismatch name

/-- Reads a floating-point number; an integer is rounded to one. -/
def toReal : Content → Except ContentError Binary64
  | .real x => .ok x
  | .integer i => .ok (.ofInt i)
  | c => c.mismatch "f64"

/-- Reads a value that a null leaves out. -/
def toOption (read : Content → Except ContentError α) : Content → Except ContentError (Option α)
  | .null => .ok none
  | c => (read c).map some

mutual

/-- Reads a document. A number that is not finite becomes a null. -/
def toJson : Content → Except ContentError Json
  | .null => .ok .null
  | .bool b => .ok (.bool b)
  | .integer i => .ok (((Number.ofInt? i).map Json.number).getD .null)
  | .real x => .ok (((Number.ofBinary64? x).map Json.number).getD .null)
  | .string s => .ok (.string s)
  | .sequence items => (toItems items).map .array
  | .mapping entries => (toFields entries []).map .object

/-- Reads the items of an array. -/
def toItems : List Content → Except ContentError (List Json)
  | [] => .ok []
  | item :: items => do return (← toJson item) :: (← toItems items)

/-- Adds the members of an object to those read before; a key has to be a text. -/
def toFields : List (Content × Content) → List (String × Json) →
    Except ContentError (List (String × Json))
  | [], acc => .ok acc
  | (.string key, value) :: entries, acc => do
    let value ← toJson value
    toFields entries (Json.insert key value acc)
  | (key, _) :: _, _ => key.mismatch "a string key"

end

/-! ### Records -/

/-- Where content comes from: directly from a document, or from a value that was set aside while
its tag was looked for. It decides how a surplus of items is reported and whether fields and
variants may be given by number. -/
inductive Source where
  | direct
  | buffered
  deriving DecidableEq

/-- How a record with fields of type `ρ` while they are being read becomes an `α`. -/
structure Record (ρ α : Type) where
  /-- What the record is called. -/
  name : String
  /-- The names of its fields, and whether they are required. -/
  fields : List (String × Bool)
  /-- The record before any field has been read. -/
  start : ρ
  /-- Reads a field. -/
  set : String → Content → ρ → Except ContentError ρ
  /-- Completes the record. -/
  finish : ρ → Except ContentError α

/-- The name of the field that a key stands for. -/
def fieldOfKey (source : Source) (names : List String) :
    Content → Except ContentError (Option String)
  | .string s => .ok (if names.contains s then some s else none)
  | .integer i =>
    if source = .buffered ∧ 0 ≤ i then .ok names[i.toNat]?
    else .error (.wrongType (.integer i) "field identifier")
  | key => key.mismatch "field identifier"

/-- Reads the entries of a mapping as fields; a field may be given once. -/
def readEntries (r : Record ρ α) (source : Source) :
    List (Content × Content) → List String → ρ → Except ContentError ρ
  | [], _, acc => .ok acc
  | (key, value) :: entries, seen, acc => do
    match ← fieldOfKey source (r.fields.map Prod.fst) key with
    | none => readEntries r source entries seen acc
    | some name =>
      if seen.contains name then throw (.duplicateField name)
      else readEntries r source entries (name :: seen) (← r.set name value acc)

/-- A number of things in words. -/
def count (n : Nat) (noun : String) : String :=
  Decimal.text n ++ " " ++ noun ++ (if n = 1 then "" else "s")

/-- Reads items as fields in order; `position` fields have been read. -/
def readItems (r : Record ρ α) (source : Source) (length : Nat) :
    List (String × Bool) → List Content → Nat → ρ → Except ContentError ρ
  | [], [], _, acc => .ok acc
  | [], _ :: _, position, _ =>
    .error (.wrongLength length
      (match source with
       | .direct => "fewer elements in array"
       | .buffered => count position "element" ++ " in sequence"))
  | (name, _) :: fields, item :: items, position, acc => do
    readItems r source length fields items (position + 1) (← r.set name item acc)
  | (_, false) :: fields, [], position, acc =>
    readItems r source length fields [] (position + 1) acc
  | (_, true) :: _, [], position, _ =>
    .error (.wrongLength position
      ("struct " ++ r.name ++ " with " ++ count r.fields.length "element"))

/-- Reads a record. -/
def toRecord (r : Record ρ α) (source : Source) : Content → Except ContentError α
  | .mapping entries => do r.finish (← readEntries r source entries [] r.start)
  | .sequence items => do r.finish (← readItems r source items.length r.fields items 0 r.start)
  | c => c.mismatch ("struct " ++ r.name)

/-- The value of a field that has to be there. -/
def required (name : String) : Option α → Except ContentError α
  | some a => .ok a
  | none => .error (.missingField name)

end Content

end Conveyor
