import Conveyor.Json.Writer
import Conveyor.Path.Basic
import Conveyor.Text.Quoted

/-!
# Untyped data

`Content` is a value as a data format holds it, before it is read as something: as a JSON document,
but with keys of any kind, members in the order written, and floating-point numbers that need not
be finite. `ContentError` says why it cannot be read as what is asked for; its wording depends
on the format, see `Wording`.
-/

namespace Conveyor

/-- A value of a data format. -/
inductive Content where
  | null
  | bool (value : Bool)
  | integer (value : Int)
  | real (value : Binary64)
  | string (value : String)
  | sequence (items : List Content)
  | mapping (entries : List (Content × Content))
  deriving Repr, Inhabited

namespace Content

mutual

/-- A document as content. -/
def ofJson : Json → Content
  | .null => .null
  | .bool b => .bool b
  | .number (.integer i _) => .integer i
  | .number (.real x _) => .real x
  | .string s => .string s
  | .array items => .sequence (ofItems items)
  | .object fields => .mapping (ofFields fields)

/-- Documents as content. -/
def ofItems : List Json → List Content
  | [] => []
  | item :: items => ofJson item :: ofItems items

/-- Members as entries. -/
def ofFields : List (String × Json) → List (Content × Content)
  | [] => []
  | (key, value) :: fields => (.string key, ofJson value) :: ofFields fields

end

mutual

/-- The number of levels of nesting, the outermost included. -/
def depth : Content → Nat
  | .sequence items => itemsDepth items + 1
  | .mapping entries => entriesDepth entries + 1
  | _ => 1

/-- The greatest number of levels of nesting of the items. -/
def itemsDepth : List Content → Nat
  | [] => 0
  | item :: items => max (depth item) (itemsDepth items)

/-- The greatest number of levels of nesting of the values of entries. -/
def entriesDepth : List (Content × Content) → Nat
  | [] => 0
  | (_, value) :: entries => max (depth value) (entriesDepth entries)

end

end Content

/-! ### Errors -/

/-- What stands where something else was expected. -/
inductive Found where
  | null
  | bool (value : Bool)
  | integer (value : Int)
  /-- An integer that fits no word. -/
  | wide (value : Int)
  | real (value : Binary64)
  | string (value : String)
  | sequence
  | mapping
  /-- A value with a tag of its own. -/
  | tagged
  deriving DecidableEq, Repr

/-- Why content is not what it is read as. -/
inductive ContentError where
  | wrongType (found : Found) (expected : String)
  | wrongValue (found : Found) (expected : String)
  | wrongLength (length : Nat) (expected : String)
  | missingField (name : String)
  | duplicateField (name : String)
  | unknownVariant (name : String) (known : List String)
  | tagInside
  | path (error : PathError)
  deriving DecidableEq, Repr

/-- The words of a format in messages. -/
structure Wording where
  /-- What a null is called. -/
  null : String
  /-- How floating-point numbers are set out. -/
  real : Binary64 → String

/-- The words for JSON. -/
def Wording.json : Wording := ⟨"null", Decimal.Layout.json.write⟩

/-- A floating-point number in messages about YAML. -/
def plainReal (x : Binary64) : String :=
  if x.isFinite then Decimal.Layout.plainPoint.write x
  else if x.isNaN then "NaN"
  else if x.isNegative then "-inf"
  else "inf"

/-- The words for YAML. -/
def Wording.yaml : Wording := ⟨"unit value", plainReal⟩

/-- A word between backquotes. -/
def backquoted (s : String) : String :=
  "`" ++ s ++ "`"

/-- What stands there, in words. -/
def Found.message (w : Wording) : Found → String
  | .null => w.null
  | .bool b => "boolean " ++ backquoted (if b then "true" else "false")
  | .integer i => "integer " ++ backquoted (Decimal.signedText i)
  | .wide i =>
    "integer " ++ backquoted (Decimal.signedText i) ++ (if i < 0 then " as i128" else " as u128")
  | .real x => "floating point " ++ backquoted (w.real x)
  | .string s => "string " ++ Text.quoted s
  | .sequence => "sequence"
  | .mapping => "map"
  | .tagged => "enum"

/-- The wording of an error. -/
def ContentError.message (w : Wording) : ContentError → String
  | .wrongType found expected => "invalid type: " ++ found.message w ++ ", expected " ++ expected
  | .wrongValue found expected => "invalid value: " ++ found.message w ++ ", expected " ++ expected
  | .wrongLength length expected =>
    "invalid length " ++ Decimal.text length ++ ", expected " ++ expected
  | .missingField name => "missing field " ++ backquoted name
  | .duplicateField name => "duplicate field " ++ backquoted name
  | .unknownVariant name known =>
    "unknown variant " ++ backquoted name ++ ", expected one of "
      ++ ", ".intercalate (known.map backquoted)
  | .tagInside => "untagged and internally tagged enums do not support enum input"
  | .path error => error.message

/-- What content is, for messages. -/
def Content.found : Content → Found
  | .null => .null
  | .bool b => .bool b
  | .integer i => .integer i
  | .real x => .real x
  | .string s => .string s
  | .sequence _ => .sequence
  | .mapping _ => .mapping

/-- Content of a type that was not expected. -/
def Content.mismatch (content : Content) (expected : String) : Except ContentError α :=
  .error (.wrongType content.found expected)

end Conveyor
