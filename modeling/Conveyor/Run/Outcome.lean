import Conveyor.Run.Error

/-!
# Outcomes of runs

How a run ends: with all steps done, with a failed step, or at its time limit. In every case the
outcome holds the context after the last step that was done.
-/

namespace Conveyor

/-- How a run ends. -/
inductive Outcome where
  | completed (context : Json)
  | failed (failure : StepFailure) (context : Json)
  /-- The time limit was reached during the step with this position and name. -/
  | timedOut (index : Nat) (name : String) (budgetMs : Nat) (context : Json)
  deriving DecidableEq, Repr

namespace Outcome

/-- The context after the last step that was done. -/
def context : Outcome → Json
  | .completed context => context
  | .failed _ context => context
  | .timedOut _ _ _ context => context

/-- Whether all steps were done. -/
def isCompleted : Outcome → Bool
  | .completed _ => true
  | _ => false

/-- The position of the step at which the run ended. -/
def stepIndex : Outcome → Option Nat
  | .completed _ => none
  | .failed failure _ => some failure.index
  | .timedOut index _ _ _ => some index

/-- Why the run ended early. -/
def error : Outcome → Option StepError
  | .completed _ => none
  | .failed failure _ => some failure.error
  | .timedOut _ _ budgetMs _ => some (.timeout budgetMs)

/-- The words for the end of a run. -/
def label : Outcome → String
  | .completed _ => "completed"
  | .failed .. => "failed"
  | .timedOut .. => "timed out"

/-- The members of an outcome in the order in which a report lists them. -/
def members : Outcome → List (String × Json)
  | .completed context => [("status", .string "completed"), ("context", context)]
  | .failed failure context =>
    [("status", .string "failed"), ("step_index", .ofNat failure.index),
      ("step_name", .string failure.name), ("error", failure.error.toJson), ("context", context)]
  | .timedOut index name budgetMs context =>
    [("status", .string "timed_out"), ("step_index", .ofNat index), ("step_name", .string name),
      ("budget_ms", .ofNat (budgetMs % 0x10000000000000000)), ("context", context)]

/-- An outcome as a document. -/
def toJson (o : Outcome) : Json :=
  .ofFields o.members

end Outcome

end Conveyor
