import Conveyor.Run.Log
import Conveyor.Workflow.Check

/-!
# Remarks on workflows

What is told about a workflow while it is checked: settings that are allowed but may not be meant.
-/

namespace Conveyor

/-- The remarks on a step, if it has a name. -/
def Step.remarks (step : Step) : List LogLine :=
  if Text.allBlank step.name then []
  else
    match step with
    | .pass s =>
      if s.parameters.isNone && !s.resultPath.isDiscard then
        [.debug ("Pass '" ++ s.name ++ "' is an identity step")]
      else []
    | .task s =>
      if s.retry.any (·.maxAttempts == 0) then
        [.warn ("Task '" ++ s.name ++ "': retry.max_attempts is 0, the call runs once")]
      else []
    | .map s _ =>
      if s.maxConcurrency.isNone then [.debug ("Map '" ++ s.name ++ "' has no concurrency limit")]
      else []

/-- The remarks on a step and on the steps of the pipeline inside it. -/
def Step.allRemarks (step : Step) : List LogLine :=
  step.remarks ++
    match step with
    | .map _ iterator => iterator.flatMap Step.remarks
    | _ => []

namespace Workflow

/-- The number of steps and operations of a workflow. -/
def extent (w : Workflow) : String :=
  Decimal.text w.length ++ " steps, " ++ Decimal.text w.adapters.length ++ " adapters"

/-- The remarks on the steps of a workflow. -/
def remarks (w : Workflow) : List LogLine :=
  w.steps.flatMap Step.allRemarks

/-- What is told while a workflow is checked. -/
def checkLines (w : Workflow) : List LogLine :=
  .info ("Validating workflow '" ++ w.name ++ "' with " ++ Decimal.text w.length ++ " steps")
    :: w.remarks
    ++ (match w.validate with
        | .ok () => [.info ("Workflow validated: " ++ w.extent)]
        | .error _ => [])

end Workflow

end Conveyor
