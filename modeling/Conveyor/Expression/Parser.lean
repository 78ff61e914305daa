import Conveyor.Expression.Basic
import Conveyor.Text.Cut

/-!
# Reading expressions

`Expression.parse` reads the text of an expression. A text that begins with `$` is a path; one that
has the form of a call is a call; any other text is a template, unless it begins as a call of an
unknown function.
-/

namespace Conveyor

namespace Expression

/-- The text between the brackets of a call of the function with a name, if a text is one. -/
def callArgument? (name : String) (cs : List Char) : Option (List Char) := do
  let rest ← Text.afterStart? name.toList cs
  let inside ← Text.afterStart? ['('] (Text.trimStart rest)
  let argument ← Text.beforeEnd? [')'] inside
  return Text.trim argument

/-- Reads the text of a format up to its closing quote: the pieces around the empty braces, and
what follows the quote. -/
def formatPieces (piece : List Char) :
    List Char → Except SyntaxFault (List String × List Char)
  | [] => .error .unterminatedFormat
  | ['\\'] => .error .danglingEscape
  | '\\' :: c :: rest => formatPieces (c :: piece) rest
  | '\'' :: rest => .ok ([String.ofList piece.reverse], rest)
  | '{' :: '}' :: rest => do
    let (pieces, after) ← formatPieces [] rest
    return (String.ofList piece.reverse :: pieces, after)
  | c :: rest => formatPieces (c :: piece) rest

/-- Where the splitting of arguments stands: outside of quotes, inside, or inside after a
backslash. -/
inductive ArgumentState where
  | outside
  | quoted (quote : Char)
  | escaped (quote : Char)

/-- The state after one more character. -/
def ArgumentState.next (c : Char) : ArgumentState → ArgumentState
  | .outside => if c = '\'' ∨ c = '"' then .quoted c else .outside
  | .quoted q => if c = '\\' then .escaped q else if c = q then .outside else .quoted q
  | .escaped q => .quoted q

/-- Splits arguments at the commas outside of quoted keys. -/
def splitArguments (state : ArgumentState) (acc : List Char) : List Char → List (List Char)
  | [] => [acc.reverse]
  | c :: rest =>
    match state, c with
    | .outside, ',' => acc.reverse :: splitArguments .outside [] rest
    | state, c => splitArguments (state.next c) (c :: acc) rest

/-- The paths after the text of a format. Empty arguments are passed over. -/
def formatArguments (input : String) (cs : List Char) : Except PathError (List Path) :=
  match Text.trim cs with
  | [] => .ok []
  | ',' :: list =>
    (((splitArguments .outside [] list).map Text.trim).filter (!·.isEmpty)).mapM
      fun argument => Path.parse (String.ofList argument)
  | _ => .error (.malformed input .missingComma)

/-- The parts of a template from its pieces and the paths between them. -/
def joinPieces : List String → List Path → List TemplatePart
  | [], _ => []
  | piece :: pieces, paths =>
    let literal := if piece.isEmpty then [] else [TemplatePart.literal piece]
    match paths with
    | [] => literal ++ joinPieces pieces []
    | p :: paths => literal ++ .ref p :: joinPieces pieces paths

/-- Reads the arguments of a format call as a template; `input` is the text of the call. -/
def parseFormat (input : String) : List Char → Except PathError Template
  | '\'' :: rest => do
    let (pieces, after) ← (formatPieces [] rest).mapError (.malformed input)
    let paths ← formatArguments input after
    if pieces.length - 1 = paths.length then return ⟨joinPieces pieces paths⟩
    else throw (.malformed input (.placeholderCount (pieces.length - 1) paths.length))
  | _ => .error (.malformed input .unquotedFormat)

/-- Reads the text of an expression. -/
def parse (text : String) : Except PathError Expression :=
  let cs := Text.trim text.toList
  let trimmed := String.ofList cs
  if startsWith "$" cs then (Path.parse trimmed).map .path
  else
    match callArgument? formatName cs with
    | some argument => (parseFormat trimmed argument).map .format
    | none =>
      match callArgument? stringToJsonName cs with
      | some argument => (Path.parse (String.ofList argument)).map .stringToJson
      | none =>
        match callArgument? jsonToStringName cs with
        | some argument => (Path.parse (String.ofList argument)).map .jsonToString
        | none =>
          if startsWith functionStart cs then .error (.malformed trimmed .unknownFunction)
          else (Template.parse trimmed).map .format

end Expression

end Conveyor
