import Conveyor.Fault
import Conveyor.Path.Basic

/-!
# Reading and writing along a path

`Path.read` gives the part of a document at a path and `Path.write` the document with that part
replaced. Writing makes what is missing on the way: an absent member or item, or one that is
`null`, becomes an object for a key and an array for a position, and an array is filled up with
`null` as far as needed. A position is any word, but no array can be that long; filling one up for a
position that it cannot have panics. There is memory enough for all positions that an array can
have.

Both follow the segments with `follow` and `install`, which report an obstacle by the number of
segments passed before it.
-/

namespace Conveyor

/-- What keeps a path from going on. -/
inductive Obstacle where
  /-- There is no such member or item. -/
  | absent
  /-- After `passed` segments stands a document of the wrong kind. -/
  | wrongKind (passed : Nat) (expected found : Kind)
  deriving DecidableEq, Repr

namespace Obstacle

/-- The obstacle as seen from one segment earlier. -/
def earlier : Obstacle → Obstacle
  | .absent => .absent
  | .wrongKind passed expected found => .wrongKind (passed + 1) expected found

/-- The error that an obstacle makes of a path. -/
def toError (path : Path) : Obstacle → PathError
  | .absent => .notFound path
  | .wrongKind passed expected found => .typeMismatch (path.take (passed + 1)) expected found

end Obstacle

namespace Json

/-- The part of a document that the segments lead to. -/
def follow : List Segment → Json → Except Obstacle Json
  | [], doc => .ok doc
  | .key name :: segments, .object fields =>
    match lookup name fields with
    | some child => (follow segments child).mapError Obstacle.earlier
    | none => .error .absent
  | .index i :: segments, .array items =>
    match items[i.toNat]? with
    | some child => (follow segments child).mapError Obstacle.earlier
    | none => .error .absent
  | .key _ :: _, doc => .error (.wrongKind 0 .object doc.kind)
  | .index _ :: _, doc => .error (.wrongKind 0 .array doc.kind)

/-- The greatest length of an array: its items, of 32 bytes each, take up fewer than `2 ^ 63`
bytes. -/
def maxItems : Nat :=
  0x7fffffffffffffff / 32

/-- The panic of filling up an array for a position that it cannot have. The length is the position
and one more, which is no word for the greatest position; code that does not check for this is then
stopped where it reads the item at the position. -/
def overflow (position : UInt64) : Panic :=
  ⟨if position + 1 = 0 then "attempt to add with overflow" else "capacity overflow"⟩

/-- Whether an array has an item at a position, or can be filled up so that it has. -/
def hasRoom (position : UInt64) (items : List Json) : Bool :=
  position.toNat < items.length || position.toNat < maxItems

/-- The items with the one at a position replaced, filled up with `null` as far as needed. -/
def setItem : Nat → Json → List Json → List Json
  | 0, value, [] => [value]
  | 0, value, _ :: items => value :: items
  | i + 1, value, [] => .null :: setItem i value []
  | i + 1, value, item :: items => item :: setItem i value items

/-- The document with the part that the segments lead to replaced. -/
def install : List Segment → Json → Json → Except (Fault Obstacle) Json
  | [], value, _ => .ok value
  | .key name :: segments, value, .null => do
    let child ← (install segments value .null).mapError (.map .earlier)
    return .object [(name, child)]
  | .key name :: segments, value, .object fields => do
    let child ← (install segments value ((lookup name fields).getD .null)).mapError (.map .earlier)
    return .object (insert name child fields)
  | .index i :: segments, value, .null =>
    if hasRoom i [] then do
      let child ← (install segments value .null).mapError (.map .earlier)
      return .array (setItem i.toNat child [])
    else .error (.panic (overflow i))
  | .index i :: segments, value, .array items =>
    if hasRoom i items then do
      let child ← (install segments value (items[i.toNat]?.getD .null)).mapError (.map .earlier)
      return .array (setItem i.toNat child items)
    else .error (.panic (overflow i))
  | .key _ :: _, _, doc => .error (.error (.wrongKind 0 .object doc.kind))
  | .index _ :: _, _, doc => .error (.error (.wrongKind 0 .array doc.kind))

end Json

namespace Path

/-- The part of a document at a path. -/
def read (path : Path) (doc : Json) : Except PathError Json :=
  (Json.follow path.segments doc).mapError (·.toError path)

/-- The document with the part at a path replaced. -/
def write (path : Path) (value doc : Json) : Except (Fault PathError) Json :=
  (Json.install path.segments value doc).mapError (.map (·.toError path))

end Path

end Conveyor
