import Conveyor.Keyed
import Conveyor.Store.Backend

/-!
# A store in memory

Objects and tables as sorted lists. A table has to be declared, with its partition key, before items
are put into it.
-/

namespace Conveyor

/-- A declared table. -/
structure Table where
  partitionKey : String
  /-- The items by the texts under which they are stored. -/
  rows : List (String × Item)
  deriving DecidableEq, Repr

/-- The state of a store in memory. -/
structure Memory where
  objects : List (ObjectRef × ByteArray)
  tables : List (String × Table)

namespace Memory

/-- A store without objects and tables. -/
def empty : Memory := ⟨[], []⟩

/-- Declares a table. -/
def declare (name partitionKey : String) (m : Memory) : Memory :=
  { m with tables := Keyed.insert name ⟨partitionKey, []⟩ m.tables }

/-- The body of an object. -/
def object? (object : ObjectRef) (m : Memory) : Option ByteArray :=
  m.objects.lookup object

/-- Stores an object. -/
def setObject (object : ObjectRef) (body : ByteArray) (m : Memory) : Memory :=
  { m with objects := Keyed.insert object body m.objects }

/-- Removes an object. -/
def eraseObject (object : ObjectRef) (m : Memory) : Memory :=
  { m with objects := Keyed.erase object m.objects }

/-- The items of a table; a table that is not declared has none. -/
def rows (table : String) (m : Memory) : List (String × Item) :=
  ((m.tables.lookup table).map Table.rows).getD []

/-- The item of a table under a key. -/
def item? (table key : String) (m : Memory) : Option Item :=
  (m.rows table).lookup key

/-- Stores an item in a table under a key. -/
def setItem (name : String) (table : Table) (key : String) (item : Item) (m : Memory) : Memory :=
  let filled := { table with rows := Keyed.insert key item table.rows }
  { m with tables := Keyed.insert name filled m.tables }

/-- The body of an object that has to be there. -/
def get (object : ObjectRef) (m : Memory) : Except CallError ByteArray :=
  match m.object? object with
  | some body => .ok body
  | none => .error object.notFound

/-- The operations of a store in memory. -/
def backend : Backend Memory where
  copy source destination := do
    let body ← Call.ofRead (get source)
    modify (setObject destination body)
    return body.size
  get object := Call.ofRead (get object)
  delete object := do
    let there := ((← getThe Memory).object? object).isSome
    modify (eraseObject object)
    return there
  put object body := modify (setObject object body)
  has object := Call.ofRead fun m => .ok (m.object? object).isSome
  putItem name item := do
    let m ← getThe Memory
    match m.tables.lookup name with
    | none => throw (.resourceNotFound name)
    | some table =>
      let key ← Call.ofExcept (item.key table.partitionKey)
      modify (setItem name table key item)
      return ⟨key, (table.rows.lookup key).isSome⟩

end Memory

end Conveyor
