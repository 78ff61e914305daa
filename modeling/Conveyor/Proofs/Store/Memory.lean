import Conveyor.Proofs.Keyed
import Conveyor.Proofs.Store.Calls
import Conveyor.Store.Memory

/-!
# What is found in a store in memory

The state of a store in memory as it is seen from outside: the object at a reference, the partition
key of a table, and the item of a table under a key. The changes of a state and the operations of
the backend in these terms.
-/

namespace Conveyor

namespace Memory

variable {m : Memory} {object other : ObjectRef} {body : ByteArray} {name other' key key' : String}
  {table : Table} {item : Item}

/-! ### Objects -/

theorem object?_setObject : (m.setObject object body).object? other =
    if other = object then some body else m.object? other :=
  Keyed.lookup_insert

theorem object?_eraseObject : (m.eraseObject object).object? other =
    if other = object then none else m.object? other :=
  Keyed.lookup_erase

@[simp] theorem setObject_tables : (m.setObject object body).tables = m.tables := rfl

@[simp] theorem eraseObject_tables : (m.eraseObject object).tables = m.tables := rfl

/-! ### Tables -/

/-- The partition key of a table that is declared. -/
def partitionKey? (name : String) (m : Memory) : Option String :=
  (m.tables.lookup name).map Table.partitionKey

theorem lookup_setItem : (m.setItem name table key item).tables.lookup other' =
    if other' = name then some { table with rows := Keyed.insert key item table.rows }
    else m.tables.lookup other' :=
  Keyed.lookup_insert

theorem partitionKey?_setItem (h : m.tables.lookup name = some table) :
    (m.setItem name table key item).partitionKey? other' = m.partitionKey? other' := by
  unfold partitionKey?
  rw [lookup_setItem]
  split
  · rename_i hother
    rw [hother, h]
    rfl
  · rfl

theorem item?_of_lookup (h : m.tables.lookup name = some table) :
    m.item? name key = table.rows.lookup key := by
  rw [item?, rows, h]
  rfl

theorem item?_setItem (h : m.tables.lookup name = some table) :
    (m.setItem name table key item).item? other' key' =
      if other' = name ∧ key' = key then some item else m.item? other' key' := by
  by_cases hother : other' = name
  · subst hother
    rw [item?_of_lookup (lookup_setItem.trans (if_pos rfl)), item?_of_lookup h,
      Keyed.lookup_insert]
    simp only [true_and]
  · rw [item?, rows, lookup_setItem, if_neg hother, if_neg fun h => hother h.1]
    rfl

/-! ### The operations of the backend -/

theorem copy_eq (source destination : ObjectRef) (m : Memory) :
    backend.copy source destination m =
      match m.object? source with
      | some body => (.ok body.size, m.setObject destination body)
      | none => (.error source.notFound, m) := by
  cases h : m.object? source with
  | some body =>
    have hread : Call.ofRead (get source) m = (.ok body, m) := by simp only [Call.ofRead, get, h]
    exact Call.bind_of_ok hread
  | none =>
    have hread : Call.ofRead (get source) m = (.error source.notFound, m) := by
      simp only [Call.ofRead, get, h]
    exact Call.bind_of_error hread

theorem get_eq (object : ObjectRef) (m : Memory) :
    backend.get object m =
      match m.object? object with
      | some body => (.ok body, m)
      | none => (.error object.notFound, m) := by
  cases h : m.object? object <;> simp only [backend, Call.ofRead, get, h]

theorem delete_eq (object : ObjectRef) (m : Memory) :
    backend.delete object m = (.ok (m.object? object).isSome, m.eraseObject object) :=
  rfl

theorem putItem_eq_of_none (h : m.tables.lookup name = none) :
    backend.putItem name item m = (.error (.resourceNotFound name), m) := by
  have hstate : (getThe Memory : Call Memory Memory) m = (.ok m, m) := rfl
  rw [show backend.putItem name item m = _ from Call.bind_of_ok hstate]
  simp only [h]
  rfl

theorem putItem_eq (h : m.tables.lookup name = some table) :
    backend.putItem name item m =
      match item.key table.partitionKey with
      | .ok key => (.ok ⟨key, (table.rows.lookup key).isSome⟩, m.setItem name table key item)
      | .error e => (.error e, m) := by
  have hstate : (getThe Memory : Call Memory Memory) m = (.ok m, m) := rfl
  rw [show backend.putItem name item m = _ from Call.bind_of_ok hstate]
  simp only [h]
  cases item.key table.partitionKey with
  | ok key => rfl
  | error e => rfl

end Memory

end Conveyor
