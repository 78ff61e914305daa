import Conveyor.Text.Cut

/-!
# References to objects

An object is stored in a container under a key. It is written `container/key`, where the key may
contain more slashes.
-/

namespace Conveyor

/-- The place of an object. -/
structure ObjectRef where
  container : String
  key : String
  deriving DecidableEq, Repr

namespace ObjectRef

/-- References are ordered by container and then by key. -/
instance : LT ObjectRef where
  lt a b := a.container < b.container ∨ (a.container = b.container ∧ a.key < b.key)

instance : DecidableLT ObjectRef :=
  fun a b =>
    inferInstanceAs (Decidable (a.container < b.container ∨
      (a.container = b.container ∧ a.key < b.key)))

/-- The text of a reference. -/
def text (r : ObjectRef) : String :=
  r.container ++ "/" ++ r.key

/-- Reads a reference: slashes at the front are passed over, and the first one after them ends the
container. -/
def parse (text : String) : Option ObjectRef :=
  match Text.cutAt? '/' (text.toList.dropWhile (· == '/')) with
  | some (container, key) =>
    if container.isEmpty || key.isEmpty then none
    else some ⟨String.ofList container, String.ofList key⟩
  | none => none

end ObjectRef

end Conveyor
