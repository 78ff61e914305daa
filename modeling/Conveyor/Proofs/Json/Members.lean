import Conveyor.Json.Basic
import Conveyor.Proofs.Keyed

/-!
# Members of objects

How the members of an object change when one of them is set.
-/

namespace Conveyor

namespace Json

variable {name key : String} {value : Json} {fields : List (String × Json)}

theorem lookup_eq : lookup name fields = fields.lookup name := by
  induction fields with
  | nil => rfl
  | cons e fields ih =>
    obtain ⟨k, v⟩ := e
    rw [lookup, Keyed.lookup_cons_eq, ih]
    simp only [eq_comm]

theorem insert_eq : insert name value fields = Keyed.insert name value fields := by
  induction fields with
  | nil => rfl
  | cons e fields ih =>
    obtain ⟨k, v⟩ := e
    simp only [insert, Keyed.insert, ih]

theorem lookup_insert :
    lookup name (insert key value fields) =
      if name = key then some value else lookup name fields := by
  rw [insert_eq, lookup_eq, lookup_eq, Keyed.lookup_insert]

theorem lookup_insert_self : lookup name (insert name value fields) = some value := by
  rw [lookup_insert, if_pos rfl]

theorem lookup_insert_of_ne (h : name ≠ key) :
    lookup name (insert key value fields) = lookup name fields := by
  rw [lookup_insert, if_neg h]

theorem insert_insert_self {other : Json} :
    insert name other (insert name value fields) = insert name other fields := by
  induction fields with
  | nil => simp [insert]
  | cons e fields ih =>
    obtain ⟨k, v⟩ := e
    by_cases hkey : k = name
    · simp [insert, hkey]
    · by_cases hlt : name < k
      · simp [insert, hkey, hlt]
      · simp [insert, hkey, hlt, ih]

end Json

end Conveyor
