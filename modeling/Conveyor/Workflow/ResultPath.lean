import Conveyor.Path.Access
import Conveyor.Path.Parser

/-!
# Where results go

A result replaces the whole context, is installed at a path of it, or is dropped. It is written as a
path, `$` for the whole context, or as the word `discard`.
-/

namespace Conveyor

/-- What becomes of a result. -/
inductive ResultPath where
  | replace
  | at (path : Path)
  | discard
  deriving DecidableEq, Repr, Inhabited

namespace ResultPath

/-- The word for a dropped result. -/
def discardWord : List Char := "discard".toList

/-- The context after a result. -/
def apply (context result : Json) : ResultPath → Except (Fault PathError) Json
  | .replace => .ok result
  | .at path => path.write result context
  | .discard => .ok context

/-- Whether results are dropped. -/
def isDiscard : ResultPath → Bool
  | .discard => true
  | _ => false

/-- Reads the text of a result path. -/
def parse (text : String) : Except PathError ResultPath :=
  if Text.trim text.toList = discardWord then .ok .discard
  else (Path.parse text).map fun path => if path.isRoot then .replace else .at path

/-- The text of a result path. -/
def text : ResultPath → String
  | .replace => "$"
  | .at path => path.text
  | .discard => String.ofList discardWord

end ResultPath

end Conveyor
