import Conveyor.Fault
import Conveyor.Run.Error
import Conveyor.Run.Log
import Conveyor.Run.Timeline

/-!
# Activities

An activity is what is left to do of a pipeline: a tree of notes, calls, pauses and forks, in which
a call holds what follows each answer. A fork runs one branch for each of a number of items, at most
`limit` of them at once, and goes on with the results of all branches, or with the first failure. An
activity that panics is done, whatever was to follow.
-/

namespace Conveyor

/-- What is recorded on the way and takes no time. -/
inductive Note where
  /-- Something happens to the step or branch with this name in the timeline. -/
  | event (id : String) (kind : EventKind)
  | line (line : LogLine)
  /-- The step at this position begins, with this context. -/
  | reached (index : Nat) (context : Json)
  deriving DecidableEq, Repr

/-- The end of a fork of which a branch failed or panicked. -/
structure Collapse where
  /-- The item of the branch. -/
  item : Nat
  fault : Fault StepFailure
  /-- The number of branches still in work. -/
  inFlight : Nat
  /-- The number of items that were never begun. -/
  pending : Nat
  deriving DecidableEq, Repr

/-- The error that the end of a fork makes of a step. -/
def Collapse.toError (c : Collapse) : StepError :=
  match c.fault with
  | .error failure => failure.ofItem c.item
  | .panic p => .aborted p.message

/-- What is left to do. -/
inductive Activity where
  /-- Nothing; the pipeline has ended, or a step of it has panicked. -/
  | done (result : Except (Fault StepFailure) Json)
  | note (note : Note) (next : Activity)
  | call (operation : String) (input : Json) (next : Except CallError Json → Activity)
  | pause (ms : Nat) (next : Activity)
  | fork (count limit : Nat) (branch : Nat → Activity)
      (next : Except Collapse (List Json) → Activity)

instance : Inhabited Activity := ⟨.done (.ok .null)⟩

/-- Nothing is left to do of a pipeline that has ended. -/
def Activity.ended (result : Except StepFailure Json) : Activity :=
  .done (result.mapError .error)

/-- Goes on with what a part of a pipeline has returned, unless it has panicked. -/
def Activity.onward {ε α : Type} (next : Except ε α → Activity) : Except (Fault ε) α → Activity
  | .ok x => next (.ok x)
  | .error (.error error) => next (.error error)
  | .error (.panic p) => .done (.error (.panic p))

/-- Goes on with what a step makes of a value, if there is one. -/
def Activity.finishWith (finish : α → Except (Fault StepError) Json)
    (next : Except StepError Json → Activity) : Except StepError α → Activity
  | .ok value => .onward next (finish value)
  | .error error => next (.error error)

/-- Writes a line to the log first. -/
def Activity.say (line : LogLine) (next : Activity) : Activity :=
  .note (.line line) next

/-- Records an event first. -/
def Activity.mark (id : String) (kind : EventKind) (next : Activity) : Activity :=
  .note (.event id kind) next

end Conveyor
