import Conveyor.Run.Log
import Conveyor.Store.Service

/-!
# Adapters

An adapter answers the calls of a run. A call takes some time, which depends on its operation and
input alone, and is then answered on the state of the adapter.
-/

namespace Conveyor

/-- How calls are answered, over states of type `σ`. -/
structure Adapter (σ : Type) where
  /-- The number of milliseconds that a call takes. -/
  delay (operation : String) (input : Json) : Nat
  /-- The answer to a call, with what there is to tell about it. The calls of each operation are
  numbered from one in the order in which they begin. -/
  answer (number : Nat) (operation : String) (input : Json) (state : σ) :
    (Except CallError Json × List LogLine) × σ

namespace Service

/-- What there is to tell about a call, with `describe` for what it did. -/
def lines (describe : Deed → String) (operation : String) (deed : Option Deed) : List LogLine :=
  .debug ("Invoking " ++ operation) :: (deed.map fun d => .debug (describe d)).toList

/-- A service as an adapter whose calls take no time. -/
def adapter (s : Service σ) (describe : Deed → String) : Adapter σ where
  delay _ _ := 0
  answer _ operation input state :=
    match s.perform operation input state with
    | (.ok (output, deed), state) => ((.ok output, lines describe operation deed), state)
    | (.error error, state) => ((.error error, lines describe operation none), state)

end Service

end Conveyor
