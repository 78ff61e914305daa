import Conveyor.Decimal.Binary64
import Conveyor.Decimal.Digits
import Conveyor.Keyed

/-!
# Timelines

The events of a run in the order in which they were recorded: when each step and each item of a map
was started and how it ended. A step is open from its start to its next end; `interruptOpen` ends
all open steps. Every end of an open step closes a span, and the durations are those of the spans.
-/

namespace Conveyor

/-- What happens to a step. -/
inductive EventKind where
  | started
  | completed
  | failed
  /-- The time limit of the run was reached while the step was open. -/
  | interrupted
  deriving DecidableEq, Repr

/-- Whether an event ends a step. -/
def EventKind.isEnd : EventKind → Bool
  | .started => false
  | _ => true

/-- The name of a kind of event. -/
def EventKind.name : EventKind → String
  | .started => "Started"
  | .completed => "Completed"
  | .failed => "Failed"
  | .interrupted => "Interrupted"

/-- Something that happened to a step, at a time in milliseconds. -/
structure Event where
  id : String
  kind : EventKind
  time : Nat
  deriving DecidableEq, Repr

/-- A finished step with the times of its start and its end. -/
structure Span where
  id : String
  start : Nat
  stop : Nat
  deriving DecidableEq, Repr

/-- The events of a run in the order of recording. -/
structure Timeline where
  events : List Event
  deriving DecidableEq, Repr, Inhabited

namespace Timeline

/-- The timeline without events. -/
def empty : Timeline := ⟨[]⟩

/-- Records an event. -/
def record (t : Timeline) (event : Event) : Timeline :=
  ⟨t.events ++ [event]⟩

/-- The number of events of a kind. -/
def count (kind : EventKind) (t : Timeline) : Nat :=
  t.events.countP (·.kind = kind)

/-- The open steps after an event. -/
def stepOpen (opened : List String) (event : Event) : List String :=
  if event.kind.isEnd then opened.filter (· ≠ event.id) else opened ++ [event.id]

/-- The steps that were started and have not ended since, once for each start. -/
def openSteps (t : Timeline) : List String :=
  t.events.foldl stepOpen []

/-- Interrupts every open step. -/
def interruptOpen (time : Nat) (t : Timeline) : Timeline :=
  ⟨t.events ++ t.openSteps.map (⟨·, .interrupted, time⟩)⟩

/-! ### Spans -/

/-- The starting times of open steps and the spans after an event; of several starts the last
counts. -/
def stepSpans (acc : List (String × Nat) × List Span) (event : Event) :
    List (String × Nat) × List Span :=
  let others := acc.1.filter (·.1 ≠ event.id)
  if event.kind.isEnd then
    match acc.1.lookup event.id with
    | some start => (others, acc.2 ++ [⟨event.id, start, event.time⟩])
    | none => acc
  else ((event.id, event.time) :: others, acc.2)

/-- The spans in the order of their starts, and of their ends where they start together. -/
def spans (t : Timeline) : List Span :=
  (t.events.foldl stepSpans ([], [])).2.mergeSort fun a b => a.start ≤ b.start

/-- The durations of the finished steps, sorted by steps; of several spans the last counts. -/
def durations (t : Timeline) : List (String × Nat) :=
  t.spans.foldl (fun acc s => Keyed.insert s.id (s.stop - s.start) acc) []

/-! ### The chart -/

/-- A text cut or filled up with spaces to a width of at least three. -/
def fit (width : Nat) (text : List Char) : List Char :=
  if text.length ≤ width then text ++ List.replicate (width - text.length) ' '
  else text.take (width - 3) ++ ['.', '.', '.']

/-- The label of a step in the chart. -/
def label (id : String) : String :=
  String.ofList (fit 24 id.toList)

/-- The labels of the lines of the chart. -/
def labels (t : Timeline) : List String :=
  t.spans.map fun s => label s.id

/-- A number of milliseconds on a scale. -/
def onScale (scale : Binary64) (ms : Nat) : Binary64 :=
  (Binary64.ofInt ms).mul scale

/-- The line of a span in the chart: its label, a bar at its time, and its duration. -/
def chartLine (scale : Binary64) (s : Span) : String :=
  let duration := s.stop - s.start
  let width := (onScale scale duration).larger .one
  let bar := List.replicate (onScale scale s.start).toWord.toNat ' '
    ++ List.replicate width.toWord.toNat '#'
  label s.id ++ " |" ++ String.ofList (bar ++ List.replicate (51 - bar.length) ' ') ++ "| ("
    ++ Decimal.text duration ++ " ms)"

/-- The chart of the spans of a run that took `total` milliseconds, fifty columns wide; a run that
took no time has none. -/
def chart (total : Nat) (t : Timeline) : List String :=
  let head := ["", "Execution Timeline:", ""]
  if total = 0 then head ++ [""]
  else
    let scale := (Binary64.ofInt 50).div (.ofInt total)
    head ++ t.spans.map (chartLine scale) ++ ["", "Total: " ++ Decimal.text total ++ " ms", ""]

end Timeline

end Conveyor
