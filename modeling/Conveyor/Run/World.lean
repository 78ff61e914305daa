import Conveyor.Run.Activity
import Conveyor.Run.Adapter

/-!
# What a run leaves behind

The state of the adapter together with all that is recorded during a run: the time, the calls, the
timeline, the log, and how far the pipeline at the top has come.
-/

namespace Conveyor

/-- A call of an operation, with the time of its beginning. -/
structure CallRecord where
  time : Nat
  operation : String
  input : Json
  deriving DecidableEq, Repr

/-- All that a run changes. -/
structure World (σ : Type) where
  /-- The number of milliseconds since the beginning of the run. -/
  now : Nat
  /-- The state of the adapter. -/
  state : σ
  calls : List CallRecord
  timeline : Timeline
  log : List LogLine
  /-- The position of the step of the pipeline at the top that began last, and its context. -/
  reached : Nat × Json
  /-- The number of calls that have begun and are not yet answered. -/
  busy : Nat
  /-- The greatest number of such calls so far. -/
  peak : Nat

namespace World

/-- The world before a run. -/
def initial (state : σ) (context : Json) : World σ :=
  ⟨0, state, [], .empty, [], (0, context), 0, 0⟩

/-- Adds lines to the log. -/
def tell (lines : List LogLine) (w : World σ) : World σ :=
  { w with log := w.log ++ lines }

/-- Records a note; only the pipeline at the top can get further. -/
def note (top : Bool) (n : Note) (w : World σ) : World σ :=
  match n with
  | .event id kind => { w with timeline := w.timeline.record ⟨id, kind, w.now⟩ }
  | .line line => w.tell [line]
  | .reached index context => if top then { w with reached := (index, context) } else w

/-- The number of calls of an operation so far. -/
def callCount (operation : String) (w : World σ) : Nat :=
  w.calls.countP (·.operation = operation)

/-- Records the beginning of a call. -/
def beginCall (operation : String) (input : Json) (w : World σ) : World σ :=
  { w with
    calls := w.calls ++ [⟨w.now, operation, input⟩]
    busy := w.busy + 1
    peak := max w.peak (w.busy + 1) }

/-- Answers a call. -/
def answer (adapter : Adapter σ) (number : Nat) (operation : String) (input : Json) (w : World σ) :
    Except CallError Json × World σ :=
  let ((result, lines), state) := adapter.answer number operation input w.state
  (result, { w with state, busy := w.busy - 1 }.tell lines)

end World

end Conveyor
