import Conveyor.Content.Basic
import Conveyor.Yaml.Node

/-!
# Why a text is not read

The errors of reading a text of YAML as something, with the trail to the value at fault and its
place in the text.
-/

namespace Conveyor.Yaml

/-! ### Places -/

/-- A place in words. -/
def Mark.message (m : Mark) : String :=
  "line " ++ Decimal.text (m.line + 1) ++ " column " ++ Decimal.text (m.column + 1)

/-- The end of a message with a place; the beginning of the text is left out. -/
def Mark.suffix (m : Mark) : String :=
  if m.isOrigin then "" else " at " ++ m.message

/-- The place of a problem in a message. -/
def SyntaxError.place (e : SyntaxError) : String :=
  if !e.mark.isOrigin then e.mark.suffix
  else if e.offset = 0 then ""
  else " at position " ++ Decimal.text e.offset

/-- What was being read, in a message; its place is left out if it is that of the problem. -/
def SyntaxError.contextMessage (e : SyntaxError) : String :=
  match e.context with
  | none => ""
  | some (context, mark) =>
    let same := mark.line = e.mark.line && mark.column = e.mark.column
    ", " ++ context ++ (if same then "" else mark.suffix)

/-- A step from a value to a part of it. -/
inductive Crumb where
  | field (key : String)
  | item (index : Nat)
  /-- A part with a key that is no scalar. -/
  | unknown
  deriving DecidableEq, Repr

/-- The way from the outermost value to a part, last step first. -/
abbrev Trail := List Crumb

/-- A trail in words. -/
def Trail.text : Trail → String
  | [] => "."
  | .item index :: rest => Trail.text rest ++ "[" ++ Decimal.text index ++ "]"
  | .field key :: rest => (if rest.isEmpty then "" else Trail.text rest ++ ".") ++ key
  | .unknown :: rest => (if rest.isEmpty then "" else Trail.text rest ++ ".") ++ "?"

/-! ### Errors -/

/-- Why a text is not read as what is asked for. -/
inductive ReadError where
  | notYaml (error : SyntaxError)
  /-- A value is not what is asked for, at a place if it is known yet. -/
  | wrong (error : ContentError) (place : Option (Mark × Trail))
  | tooDeep (mark : Mark)
  | tooManyAliases
  | repeatedKey
  | severalDocuments
  deriving Repr

/-- An error with a place, if it has none yet. -/
def ReadError.located (mark : Mark) (trail : Trail) : ReadError → ReadError
  | .wrong error none => .wrong error (some (mark, trail))
  | e => e

/-- The wording of an error, with its place or without. -/
def ReadError.text (placed : Bool) : ReadError → String
  | .notYaml e => e.problem ++ (if placed then e.place else "") ++ e.contextMessage
  | .wrong e none => e.message .yaml
  | .wrong e (some (mark, trail)) =>
    let before := if trail.text = "." then "" else trail.text ++ ": "
    before ++ e.message .yaml ++ (if placed then mark.suffix else "")
  | .tooDeep mark => "recursion limit exceeded" ++ (if placed then mark.suffix else "")
  | .tooManyAliases => "repetition limit exceeded"
  | .repeatedKey => "duplicate entry in YAML map"
  | .severalDocuments =>
    "deserializing from YAML containing more than one document is not supported"

end Conveyor.Yaml
