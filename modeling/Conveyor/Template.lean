import Conveyor.Json.Writer
import Conveyor.Path.Access
import Conveyor.Path.Parser

/-!
# Texts with references

A template is a text with paths in braces, such as `process/{$.key}`; a brace of the text is written
twice. Filling a template in puts the text of the part of a document at each path in its place.
-/

namespace Conveyor

/-- A piece of a template. -/
inductive TemplatePart where
  | literal (text : String)
  | ref (path : Path)
  deriving DecidableEq, Repr

/-- A text with references into a document. -/
structure Template where
  parts : List TemplatePart
  deriving DecidableEq, Repr

/-- A template that cannot be filled in, with the reference that failed. -/
structure FormatError where
  template : Template
  cause : PathError
  deriving DecidableEq, Repr

namespace Template

/-- The literal part read so far, unless it is empty; its characters are held in reverse. -/
def literalPart (acc : List Char) : List TemplatePart :=
  if acc.isEmpty then [] else [.literal (String.ofList acc.reverse)]

/-- Reads the parts of a template; `acc` holds the literal before the text, in reverse. -/
def parseParts (input : String) (acc : List Char) :
    List Char → Except PathError (List TemplatePart)
  | [] => .ok (literalPart acc)
  | '{' :: '{' :: rest => parseParts input ('{' :: acc) rest
  | '}' :: '}' :: rest => parseParts input ('}' :: acc) rest
  | '{' :: rest =>
    match _h : rest.dropWhile (· != '}') with
    | [] => .error (.malformed input .unterminatedBrace)
    | _ :: rest' => do
      let path ← Path.parse (String.ofList (rest.takeWhile (· != '}')))
      let parts ← parseParts input [] rest'
      return literalPart acc ++ .ref path :: parts
  | '}' :: _ => .error (.malformed input .unmatchedBrace)
  | c :: rest => parseParts input (c :: acc) rest
termination_by cs => cs.length
decreasing_by
  · simp only [List.length_cons]; omega
  · simp only [List.length_cons]; omega
  · have := Path.length_dropWhile_le (· != '}') rest
    rw [_h] at this
    simp only [List.length_cons] at *; omega
  · simp

/-- Reads the text of a template. -/
def parse (text : String) : Except PathError Template :=
  (parseParts text [] text.toList).map Template.mk

/-- A character of a literal part: a brace is written twice. -/
def doubleBrace (c : Char) : List Char :=
  if c = '{' ∨ c = '}' then [c, c] else [c]

/-- The characters of a part. -/
def partChars : TemplatePart → List Char
  | .literal text => text.toList.flatMap doubleBrace
  | .ref path => '{' :: path.chars ++ ['}']

/-- The characters of a template. -/
def chars (t : Template) : List Char :=
  t.parts.flatMap partChars

/-- The text of a template. -/
def text (t : Template) : String :=
  String.ofList t.chars

/-- The path that a part refers to. -/
def partPath? : TemplatePart → Option Path
  | .literal _ => none
  | .ref path => some path

/-- The paths that a template refers to, in order. -/
def references (t : Template) : List Path :=
  t.parts.filterMap partPath?

/-- Fills in parts one after another; the first reference that fails stops it. -/
def fillParts (doc : Json) : List TemplatePart → Except PathError String
  | [] => .ok ""
  | .literal text :: parts => do return text ++ (← fillParts doc parts)
  | .ref path :: parts => do
    let value ← path.read doc
    return value.text ++ (← fillParts doc parts)

/-- The text of a template with the parts of a document in place of the references. -/
def format (t : Template) (doc : Json) : Except FormatError String :=
  (fillParts doc t.parts).mapError (FormatError.mk t)

end Template

/-- The wording of an error. -/
def FormatError.message (e : FormatError) : String :=
  "cannot format template '" ++ e.template.text ++ "': " ++ e.cause.message

end Conveyor
