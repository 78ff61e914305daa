import Conveyor.Json.Reader
import Conveyor.Keyed
import Conveyor.Store.Backend
import Conveyor.Store.Tree

/-!
# A store on files

Each object is a file below the folder of its container, and each table a file `NAME.json` that
holds an object of items by their keys. References that would lead out of the folder of the
objects are refused.
-/

namespace Conveyor

/-- Where a store keeps its files, and the tables that it has. -/
structure FileStore where
  /-- The folder of the containers. -/
  objects : Route
  /-- The folder of the tables. -/
  tables : Route
  /-- The partition keys of the tables, the table declared last first. -/
  schemas : List (String × String)
  deriving DecidableEq, Repr

namespace FileStore

/-- Declares a table. -/
def declare (name partitionKey : String) (s : FileStore) : FileStore :=
  { s with schemas := (name, partitionKey) :: s.schemas }

/-- A fault as the error of a call. -/
def failed (fault : FileFault) : CallError :=
  .failed fault.message

/-- A fault as the error of a call that needs an object. -/
def objectFault (object : ObjectRef) : FileFault → CallError
  | .missing => object.notFound
  | fault => failed fault

/-! ### Objects -/

/-- Whether a container or a key leads further down, and nowhere else. -/
def leadsDown (part : String) : Bool :=
  let names := Route.namesOf part.toList
  part.toList.head? != some '/' && !names.isEmpty && names.head? != some "."
    && !names.contains ".."

/-- The file of an object. -/
def locate (s : FileStore) (object : ObjectRef) : Except CallError Route :=
  if leadsDown object.container && leadsDown object.key then
    .ok ((s.objects.join object.container).join object.key)
  else .error (.invalidInput "storage" ("invalid object reference '" ++ object.text ++ "'"))

/-- Makes the folders in which a file is to be written. -/
def makeParents (r : Route) : Call Tree Unit :=
  fun t => let (result, t') := t.makeParents r; (result.mapError failed, t')

/-- Copies the file of an object. -/
def copy (s : FileStore) (source destination : ObjectRef) : Call Tree Nat := do
  let origin ← Call.ofExcept (s.locate source)
  let target ← Call.ofExcept (s.locate destination)
  makeParents target
  Call.ofUpdate fun t => (t.copy origin target).mapError (objectFault source)

/-- Reads the file of an object. -/
def get (s : FileStore) (object : ObjectRef) : Call Tree ByteArray := do
  let r ← Call.ofExcept (s.locate object)
  Call.ofRead fun t => (t.read r).mapError (objectFault object)

/-- Removes the file of an object, if there is one. -/
def delete (s : FileStore) (object : ObjectRef) : Call Tree Bool := do
  let r ← Call.ofExcept (s.locate object)
  Call.ofUpdate fun t =>
    match t.remove r with
    | .ok t' => .ok (true, t')
    | .error .missing => .ok (false, t)
    | .error fault => .error (failed fault)

/-- Writes the file of an object. -/
def put (s : FileStore) (object : ObjectRef) (body : ByteArray) : Call Tree Unit := do
  let r ← Call.ofExcept (s.locate object)
  makeParents r
  Call.ofUpdate fun t => ((t.write r body).map fun t' => ((), t')).mapError failed

/-- Whether there is anything where the file of an object would be. -/
def has (s : FileStore) (object : ObjectRef) : Call Tree Bool := do
  let r ← Call.ofExcept (s.locate object)
  Call.ofRead fun t => (t.has r).mapError failed

/-! ### Tables -/

/-- The file of a table. -/
def tableRoute (s : FileStore) (table : String) : Route :=
  s.tables.join (table ++ ".json")

/-- The items of a table; a table without a file has none. -/
def load (s : FileStore) (table : String) (t : Tree) : Except CallError (List (String × Item)) :=
  match t.readText (s.tableRoute table) with
  | .ok text =>
    match Json.readObjects text with
    | .ok rows => .ok (rows.foldl (fun acc (key, item) => Keyed.insert key item acc) [])
    | .error e => .error (.failed ("table '" ++ table ++ "' is corrupt: " ++ e.message))
  | .error .missing => .ok []
  | .error fault => .error (failed fault)

/-- The text of the file of a table. -/
def tableText (rows : List (String × Item)) : String :=
  (Json.object (rows.map fun (key, item) => (key, .object item))).pretty

/-- Makes the folder of the tables. -/
def makeTables (s : FileStore) : Call Tree Unit :=
  fun t =>
    if Route.hasNul s.tables.names then (.error (failed .nulInName), t)
    else
      let (result, t') := t.makeFolders s.tables.start s.tables.names
      (result.mapError failed, t')

/-- Puts an item into the file of a table. -/
def putItem (s : FileStore) (table : String) (item : Item) : Call Tree Stored := do
  match s.schemas.lookup table with
  | none => throw (.resourceNotFound table)
  | some partitionKey =>
    let key ← Call.ofExcept (item.key partitionKey)
    let rows ← Call.ofRead (s.load table)
    s.makeTables
    Call.ofUpdate fun t =>
      ((t.write (s.tableRoute table) (tableText (Keyed.insert key item rows)).toUTF8).map
        fun t' => ((), t')).mapError failed
    return ⟨key, (rows.lookup key).isSome⟩

/-- The operations of a store on files. -/
def backend (s : FileStore) : Backend Tree where
  copy := s.copy
  get := s.get
  delete := s.delete
  put := s.put
  has := s.has
  putItem := s.putItem

end FileStore

end Conveyor
