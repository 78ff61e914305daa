import Conveyor.Decimal.Layout
import Conveyor.Json.Basic

/-!
# Writing JSON

Two layouts of a document: `Json.compact`, without any space, and `Json.pretty`, with one member or
item a line, indented by two spaces. Both write object members in their order, so by key.
-/

namespace Conveyor

/-- The text of a number. -/
def Number.write : Number → String
  | .integer value _ => Decimal.signedText value
  | .real value _ => Decimal.Layout.json.write value

namespace Json

/-- How a character is written inside a string: quotes, backslashes and control characters are
escaped, all else stands for itself. -/
def escape (c : Char) : List Char :=
  match c with
  | '"' => ['\\', '"']
  | '\\' => ['\\', '\\']
  | '\x08' => ['\\', 'b']
  | '\x0c' => ['\\', 'f']
  | '\n' => ['\\', 'n']
  | '\r' => ['\\', 'r']
  | '\t' => ['\\', 't']
  | c => if c.toNat < 0x20 then "\\u".toList ++ (Decimal.hexText false 4 c.toNat).toList else [c]

/-- A string in quotes. -/
def quoted (s : String) : String :=
  "\"" ++ String.ofList (s.toList.flatMap escape) ++ "\""

mutual

/-- The document without spaces. -/
def compact : Json → String
  | .null => "null"
  | .bool true => "true"
  | .bool false => "false"
  | .number n => n.write
  | .string s => quoted s
  | .array items => "[" ++ ",".intercalate (compactItems items) ++ "]"
  | .object fields => "\x7b" ++ ",".intercalate (compactFields fields) ++ "\x7d"

/-- The items of an array, each without spaces. -/
def compactItems : List Json → List String
  | [] => []
  | item :: items => compact item :: compactItems items

/-- The members of an object, each without spaces. -/
def compactFields : List (String × Json) → List String
  | [] => []
  | (k, v) :: fields => (quoted k ++ ":" ++ compact v) :: compactFields fields

end

/-- The entries of an array or object on lines of their own, between its brackets. -/
def block (opening closing : String) (indent : Nat) (entries : List String) : String :=
  if entries.isEmpty then opening ++ closing
  else
    let margin := "\n" ++ "".pushn ' ' (2 * indent)
    opening ++ margin ++ "  " ++ ("," ++ margin ++ "  ").intercalate entries ++ margin ++ closing

mutual

/-- The document with one member or item a line, inside `indent` levels. -/
def prettyAt (indent : Nat) : Json → String
  | .array items => block "[" "]" indent (prettyItems (indent + 1) items)
  | .object fields => block "\x7b" "\x7d" indent (prettyFields (indent + 1) fields)
  | scalar => compact scalar

/-- The items of an array, inside `indent` levels. -/
def prettyItems (indent : Nat) : List Json → List String
  | [] => []
  | item :: items => prettyAt indent item :: prettyItems indent items

/-- The members of an object, inside `indent` levels. -/
def prettyFields (indent : Nat) : List (String × Json) → List String
  | [] => []
  | (k, v) :: fields => (quoted k ++ ": " ++ prettyAt indent v) :: prettyFields indent fields

end

/-- The document with one member or item a line. -/
def pretty (doc : Json) : String :=
  prettyAt 0 doc

/-- The text that stands for a document inside a template: a string is its own text, anything else
is written without spaces. -/
def text : Json → String
  | .string s => s
  | doc => doc.compact

end Json

end Conveyor
