import Conveyor.Run.Machine
import Conveyor.Run.Outcome
import Conveyor.Run.Steps

/-!
# Runs of workflows

`Engine.execute` runs a workflow on a context, within a budget of time if there is one, and reports
how the run ended. The report comes with the machine as it was then, so that what is left of an
abandoned map can still be followed. There is no report of a run in which a step of the workflow
panics, as opposed to a step inside of a map.
-/

namespace Conveyor

/-- How calls are answered, and the budget of every run. -/
structure Engine (σ : Type) where
  adapter : Adapter σ
  /-- The budget in milliseconds; the time limit of the workflow counts without it. -/
  budgetMs : Option Nat

/-- How a run ended, and when. -/
structure Report where
  /-- The name of the workflow. -/
  workflow : String
  elapsedMs : Nat
  outcome : Outcome
  timeline : Timeline

namespace Engine

/-- The budget in milliseconds for a workflow. -/
def budgetFor (e : Engine σ) (w : Workflow) : Option Nat :=
  e.budgetMs <|> w.timeoutMs

/-- The line on the beginning of a run. -/
def startLine (w : Workflow) (budget : Option Nat) : LogLine :=
  .info ("Starting workflow '" ++ w.name ++ "' (" ++ Decimal.text w.length ++ " steps, budget: "
    ++ (match budget with
        | some ms => Decimal.Layout.plain.write (seconds ms) ++ "s"
        | none => "none") ++ ")")

/-- The line on the end of a run. -/
def endLine (w : Workflow) : Outcome → LogLine
  | .completed _ => .info ("Workflow '" ++ w.name ++ "' completed")
  | .failed failure _ =>
    .error ("Workflow '" ++ w.name ++ "' failed at step " ++ Decimal.text failure.index
      ++ " ('" ++ failure.name ++ "'): " ++ failure.error.message)
  | .timedOut index name budget _ =>
    .warn ("Workflow '" ++ w.name ++ "' timed out after " ++ Decimal.oneDecimal (seconds budget)
      ++ "s during step " ++ Decimal.text index ++ " ('" ++ name ++ "')")

/-- The outcome of a run that has ended, unless it has panicked. -/
def outcomeOf (w : Workflow) (budget : Option Nat) (reached : Nat × Json) :
    Ending → Except Panic Outcome
  | .finished (.ok context) => .ok (.completed context)
  | .finished (.error (.error failure)) => .ok (.failed failure reached.2)
  | .finished (.error (.panic p)) => .error p
  | .timedOut => .ok (.timedOut reached.1 ((w.steps[reached.1]?.map Step.name).getD "")
      (budget.getD 0) reached.2)

/-- Closes the timeline of a run that was cut off. -/
def closeTimeline (w : World σ) : Ending → World σ
  | .finished _ => w
  | .timedOut => { w with timeline := w.timeline.interruptOpen w.now }

/-- The report on a run that has ended, with the machine in which the end is logged. -/
def report (w : Workflow) (budget : Option Nat) (ending : Ending) (m : Machine σ) :
    Except Panic Report × Machine σ :=
  let m := m.onWorld (closeTimeline · ending)
  match outcomeOf w budget m.world.reached ending with
  | .ok outcome => (.ok ⟨w.name, m.world.now, outcome, m.world.timeline⟩,
      m.onWorld (.tell [endLine w outcome]))
  | .error p => (.error p, m)

/-- Runs a workflow on a context and tells how the run ended, if it has not panicked; none if it
does not end. -/
def execute (e : Engine σ) (w : Workflow) (context : Json) (state : σ) :
    Option (Except Panic Report × Machine σ) :=
  let budget := e.budgetFor w
  let m := (Machine.start state context (w.steps.activity "" context)).onWorld
    (.tell [startLine w budget])
  let m := m.run e.adapter budget
  m.ending.map fun ending => report w budget ending m

end Engine

end Conveyor
