/-!
# Entries sorted by key

Lists of entries in the order of their keys, no key twice, so that the same entries make the same
list. `insert` and `erase` keep them so; `List.lookup` finds the value of a key.
-/

namespace Conveyor

namespace Keyed

/-- Sets the value of a key. -/
def insert [DecidableEq κ] [LT κ] [DecidableLT κ] (key : κ) (value : α) :
    List (κ × α) → List (κ × α)
  | [] => [(key, value)]
  | (k, v) :: entries =>
    if k = key then (key, value) :: entries
    else if key < k then (key, value) :: (k, v) :: entries
    else (k, v) :: insert key value entries

/-- Removes a key. -/
def erase [DecidableEq κ] (key : κ) (entries : List (κ × α)) : List (κ × α) :=
  entries.filter (·.1 ≠ key)

end Keyed

end Conveyor
