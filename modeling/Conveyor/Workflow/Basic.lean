import Conveyor.Workflow.Step

/-!
# Workflows

A workflow is a named pipeline with an optional time limit for a whole run.
-/

namespace Conveyor

/-- A named pipeline. -/
structure Workflow where
  name : String
  comment : Option String
  /-- The time limit of a run in seconds. -/
  timeoutSecs : Option UInt64
  steps : Pipeline
  deriving DecidableEq, Repr

namespace Workflow

/-- A workflow without comment and time limit. -/
def ofSteps (name : String) (steps : Pipeline) : Workflow :=
  ⟨name, none, none, steps⟩

/-- Sets the time limit, of which whole seconds count. -/
def withTimeout (ms : Nat) (w : Workflow) : Workflow :=
  { w with timeoutSecs := some (ms / 1000).toUInt64 }

/-- The time limit in milliseconds. -/
def timeoutMs (w : Workflow) : Option Nat :=
  w.timeoutSecs.map fun secs => secs.toNat * 1000

/-- The number of steps at the top. -/
def length (w : Workflow) : Nat :=
  w.steps.length

/-- Inserts a text into a sorted list without repetitions. -/
def insertSorted (s : String) : List String → List String
  | [] => [s]
  | t :: ts => if s = t then t :: ts else if s < t then s :: t :: ts else t :: insertSorted s ts

mutual

/-- Adds the operations that a step calls to a sorted list. -/
def addStepAdapters : Step → List String → List String
  | .pass _, acc => acc
  | .task s, acc => insertSorted s.adapter acc
  | .map _ iterator, acc => addAdapters iterator acc

/-- Adds the operations that a pipeline calls to a sorted list. -/
def addAdapters : List Step → List String → List String
  | [], acc => acc
  | s :: steps, acc => addAdapters steps (addStepAdapters s acc)

end

/-- The operations that a workflow calls at any level, sorted and without repetitions. -/
def adapters (w : Workflow) : List String :=
  addAdapters w.steps []

end Workflow

end Conveyor
