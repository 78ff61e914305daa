import Conveyor.Json.Writer
import Conveyor.Store.Error

/-!
# Items of tables

An item is an object, stored under the text of its partition key: a string or a number, bare or as
the only member of an object that names its type.
-/

namespace Conveyor

/-- The operation that puts an item into a table. -/
def putItemName : String := "table:putItem"

/-- An object as stored in a table. -/
abbrev Item := List (String × Json)

namespace Item

/-- The value of an attribute without the object that names its type. -/
def unwrap : Json → Json
  | .object [(_, value)] => value
  | value => value

/-- The text under which an item is stored in a table with a partition key. -/
def key (partitionKey : String) (item : Item) : Except CallError String :=
  match Json.lookup partitionKey item with
  | none =>
    .error (.invalidInput putItemName ("item is missing partition key '" ++ partitionKey ++ "'"))
  | some value =>
    let unfit := .error (.invalidInput putItemName
      ("partition key '" ++ partitionKey ++ "' must be a non-empty string or number, got "
        ++ (unwrap value).compact))
    match unwrap value with
    | .string s => if s.isEmpty then unfit else .ok s
    | .number n => .ok n.write
    | _ => unfit

end Item

end Conveyor
