import Conveyor.Store.Error
import Conveyor.Store.Item
import Conveyor.Store.Object

/-!
# Backends

What a store of objects and tables can do, over the state that it keeps. An operation that fails may
still have changed the state.
-/

namespace Conveyor

/-- An operation on a state that may fail. -/
abbrev Call (σ α : Type) := ExceptT CallError (StateM σ) α

namespace Call

/-- A result that does not depend on the state. -/
def ofExcept (result : Except CallError α) : Call σ α :=
  fun s => (result, s)

/-- An operation that changes nothing. -/
def ofRead (read : σ → Except CallError α) : Call σ α :=
  fun s => (read s, s)

/-- An operation that changes nothing when it fails. -/
def ofUpdate (update : σ → Except CallError (α × σ)) : Call σ α :=
  fun s =>
    match update s with
    | .ok (a, s') => (.ok a, s')
    | .error e => (.error e, s)

end Call

/-- What putting an item did. -/
structure Stored where
  /-- The text under which the item is stored. -/
  key : String
  /-- Whether another item was stored there before. -/
  replaced : Bool
  deriving DecidableEq, Repr

/-- The operations of a store with states of type `σ`. -/
structure Backend (σ : Type) where
  /-- Copies an object and tells its size. -/
  copy (source destination : ObjectRef) : Call σ Nat
  get (object : ObjectRef) : Call σ ByteArray
  /-- Removes an object and tells whether there was one. -/
  delete (object : ObjectRef) : Call σ Bool
  put (object : ObjectRef) (body : ByteArray) : Call σ Unit
  has (object : ObjectRef) : Call σ Bool
  putItem (table : String) (item : Item) : Call σ Stored

/-- The error for an object that is not there. -/
def ObjectRef.notFound (object : ObjectRef) : CallError :=
  .objectNotFound object.container object.key

end Conveyor
