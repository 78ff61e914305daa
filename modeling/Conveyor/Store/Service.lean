import Conveyor.Store.Backend
import Conveyor.Store.Policy

/-!
# Operations on stores

The operations that tasks can call: copying, getting and deleting an object, and putting an item
into a table. `Service.perform` reads the input of a call, asks the policy, and works on a backend.
-/

namespace Conveyor

/-- An operation that tasks can call. -/
inductive Operation where
  | copyObject
  | getObject
  | deleteObject
  | putItem
  deriving DecidableEq, Repr

namespace Operation

/-- All operations. -/
def all : List Operation := [.copyObject, .getObject, .deleteObject, .putItem]

/-- The name by which tasks call an operation. -/
def name : Operation → String
  | .copyObject => "storage:copyObject"
  | .getObject => "storage:getObject"
  | .deleteObject => "storage:deleteObject"
  | .putItem => putItemName

/-- The operation with a name. -/
def ofName? (name : String) : Option Operation :=
  all.find? (·.name = name)

/-- The names of all operations. -/
def names : List String :=
  all.map name

end Operation

/-- What a call did to a store. -/
inductive Deed where
  | copied (source destination : ObjectRef) (size : Nat)
  | deleted (object : ObjectRef)
  | stored (table : String) (stored : Stored)
  deriving DecidableEq, Repr

/-- A store behind a policy. -/
structure Service (σ : Type) where
  backend : Backend σ
  policy : AccessPolicy

namespace Service

/-- A member of an input that has to be a text that is not empty. -/
def requiredText (operation : Operation) (input : Json) (field : String) :
    Except CallError String :=
  match (input.member? field).bind Json.string? with
  | some s =>
    if s.isEmpty then
      .error (.invalidInput operation.name ("missing string field '" ++ field ++ "'"))
    else .ok s
  | none => .error (.invalidInput operation.name ("missing string field '" ++ field ++ "'"))

/-- The object that an input names. -/
def namedObject (operation : Operation) (input : Json) : Except CallError ObjectRef := do
  let container ← requiredText operation input "Bucket"
  let key ← requiredText operation input "Key"
  return ⟨container, key⟩

/-- The object that an input names as the source of a copy. -/
def sourceObject (input : Json) : Except CallError ObjectRef := do
  let text ← requiredText .copyObject input "CopySource"
  match ObjectRef.parse text with
  | some object => return object
  | none =>
    throw (.invalidInput Operation.copyObject.name
      ("CopySource '" ++ text ++ "' is not container/key"))

/-- The item that an input holds. -/
def namedItem (input : Json) : Except CallError Item :=
  match input.member? "Item" with
  | some (.object item) => .ok item
  | _ => .error (.invalidInput Operation.putItem.name "'Item' must be an object")

/-- The members of an answer that name an object. -/
def objectMembers (object : ObjectRef) : List (String × Json) :=
  [("Bucket", .string object.container), ("Key", .string object.key)]

/-- Copies an object. -/
def copyObject (s : Service σ) (input : Json) : Call σ (Json × Option Deed) := do
  let destination ← Call.ofExcept (namedObject .copyObject input)
  let source ← Call.ofExcept (sourceObject input)
  Call.ofExcept (s.policy.checkRead Operation.copyObject.name source.container)
  Call.ofExcept (s.policy.checkWrite Operation.copyObject.name destination.container)
  let size ← s.backend.copy source destination
  return (.ofFields (objectMembers destination ++
    [("CopySource", .string source.text), ("ContentLength", .ofNat size)]),
    some (.copied source destination size))

/-- Answers with the body of an object, which has to be text. -/
def getObject (s : Service σ) (input : Json) : Call σ (Json × Option Deed) := do
  let object ← Call.ofExcept (namedObject .getObject input)
  Call.ofExcept (s.policy.checkRead Operation.getObject.name object.container)
  let body ← s.backend.get object
  match String.fromUTF8? body with
  | some text =>
    return (.ofFields (objectMembers object ++
      [("Body", .string text), ("ContentLength", .ofNat body.size)]), none)
  | none => throw (.failed ("object '" ++ object.text ++ "' is not valid UTF-8"))

/-- Deletes an object; it need not be there. -/
def deleteObject (s : Service σ) (input : Json) : Call σ (Json × Option Deed) := do
  let object ← Call.ofExcept (namedObject .deleteObject input)
  Call.ofExcept (s.policy.checkWrite Operation.deleteObject.name object.container)
  let there ← s.backend.delete object
  return (.ofFields (objectMembers object ++ [("Deleted", .bool true)]),
    if there then some (.deleted object) else none)

/-- Puts an item into a table. -/
def putItem (s : Service σ) (input : Json) : Call σ (Json × Option Deed) := do
  let table ← Call.ofExcept (requiredText .putItem input "TableName")
  let item ← Call.ofExcept (namedItem input)
  Call.ofExcept (s.policy.checkTable Operation.putItem.name table)
  let stored ← s.backend.putItem table item
  return (.ofFields [("TableName", .string table), ("StatusCode", .ofNat 200),
    ("Replaced", .bool stored.replaced)], some (.stored table stored))

/-- Performs an operation on an input. -/
def apply (s : Service σ) (input : Json) : Operation → Call σ (Json × Option Deed)
  | .copyObject => s.copyObject input
  | .getObject => s.getObject input
  | .deleteObject => s.deleteObject input
  | .putItem => s.putItem input

/-- Performs the operation with a name on an input, and tells what it did. -/
def perform (s : Service σ) (operation : String) (input : Json) : Call σ (Json × Option Deed) :=
  match Operation.ofName? operation with
  | some op => s.apply input op
  | none => throw (.unknownOperation operation)

/-- The answer of the operation with a name to an input. -/
def invoke (s : Service σ) (operation : String) (input : Json) : Call σ Json := do
  return (← s.perform operation input).1

end Service

end Conveyor
