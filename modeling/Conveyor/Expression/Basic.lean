import Conveyor.Json.Reader
import Conveyor.Template

/-!
# Expressions

An expression computes a value from a document: the part at a path, a filled-in template, the
document that a string part is the text of, or the text of a part. It is written as a path, as a
template, or as a call of `States.Format`, `States.StringToJson` or `States.JsonToString`. A
template is written as it is unless its text would then read as something else; then it is written
as a call of `States.Format`, in which a backslash takes away the meaning of the character after
it.
-/

namespace Conveyor

/-- A value computed from a document. -/
inductive Expression where
  | path (path : Path)
  | format (template : Template)
  | stringToJson (path : Path)
  | jsonToString (path : Path)
  deriving DecidableEq, Repr

/-- Why a part of a document cannot be read as the text of a document. -/
inductive TextFault where
  | notText (found : Kind)
  | unreadable (error : Json.ReadError)
  deriving DecidableEq, Repr

/-- Why an expression has no value. -/
inductive EvalError where
  | path (error : PathError)
  | format (error : FormatError)
  | stringToJson (path : Path) (fault : TextFault)
  deriving DecidableEq, Repr

/-- The wording of a fault. -/
def TextFault.message : TextFault → String
  | .notText found => "expected string but found " ++ found.name
  | .unreadable error => error.message

namespace Expression

/-- The names of the functions. -/
def formatName : String := "States.Format"

@[inherit_doc formatName]
def stringToJsonName : String := "States.StringToJson"

@[inherit_doc formatName]
def jsonToStringName : String := "States.JsonToString"

/-- The beginning of all names of functions. -/
def functionStart : String := "States."

end Expression

/-- The wording of an error. -/
def EvalError.message : EvalError → String
  | .path error => error.message
  | .format error => error.message
  | .stringToJson p fault =>
    Expression.stringToJsonName ++ " at '" ++ p.text ++ "': " ++ fault.message

namespace Expression

/-! ### Writing -/

/-- Whether `start` is the beginning of a text. -/
def startsWith (start : String) (cs : List Char) : Bool :=
  start.toList.isPrefixOf cs

/-- Whether the text of a template reads as that template: it has no blanks at its ends, and it
begins neither as a path nor as a call. -/
def isShortForm (cs : List Char) : Bool :=
  Text.trim cs == cs && !startsWith "$" cs && !startsWith functionStart cs

/-- A character of a literal part inside a call. -/
def escapeFormat (c : Char) : List Char :=
  if c = '\\' ∨ c = '\'' ∨ c = '{' ∨ c = '}' then ['\\', c] else [c]

/-- A part of a template inside a call; a reference is an empty pair of braces. -/
def formatPartChars : TemplatePart → List Char
  | .literal text => text.toList.flatMap escapeFormat
  | .ref _ => ['{', '}']

/-- A template as a call: its text with empty braces, and then the paths for them. -/
def formatCallChars (t : Template) : List Char :=
  formatName.toList ++ ['(', '\''] ++ t.parts.flatMap formatPartChars ++ ['\'']
    ++ t.references.flatMap (fun p => [',', ' '] ++ p.chars) ++ [')']

/-- A call of a function on a path. -/
def callChars (name : String) (p : Path) : List Char :=
  name.toList ++ ['('] ++ p.chars ++ [')']

/-- The characters of an expression. -/
def chars : Expression → List Char
  | .path p => p.chars
  | .format t => if isShortForm t.chars then t.chars else formatCallChars t
  | .stringToJson p => callChars stringToJsonName p
  | .jsonToString p => callChars jsonToStringName p

/-- The text of an expression. -/
def text (e : Expression) : String :=
  String.ofList e.chars

/-! ### Meaning -/

/-- The paths that an expression refers to, in order. -/
def references : Expression → List Path
  | .path p | .stringToJson p | .jsonToString p => [p]
  | .format t => t.references

/-- The value of an expression on a document. -/
def evaluate (doc : Json) : Expression → Except EvalError Json
  | .path p => (p.read doc).mapError .path
  | .format t => ((t.format doc).map .string).mapError .format
  | .stringToJson p => do
    match ← (p.read doc).mapError .path with
    | .string s => (Json.read s).mapError fun e => .stringToJson p (.unreadable e)
    | value => .error (.stringToJson p (.notText value.kind))
  | .jsonToString p => do
    let value ← (p.read doc).mapError .path
    return .string value.compact

end Expression

end Conveyor
