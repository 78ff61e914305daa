import Conveyor.Decimal.Layout
import Conveyor.Expression.Basic
import Conveyor.Store.Error

/-!
# Failed steps

Why a step fails, and where in a pipeline it did.
-/

namespace Conveyor

/-- A number of milliseconds as a number of seconds. -/
def seconds (ms : Nat) : Binary64 :=
  (Binary64.ofInt (ms / 1000 : Nat)).add
    ((Binary64.ofInt (ms % 1000 * 1000000 : Nat)).div (Binary64.ofInt 1000000000))

/-- Why a step fails. -/
inductive StepError where
  /-- A value could not be computed from the context, or not be put into it. -/
  | value (error : EvalError)
  /-- The last call of an operation failed. -/
  | call (operation : String) (error : CallError)
  /-- The run took longer than it may. -/
  | timeout (budgetMs : Nat)
  /-- The pipeline of a map failed for an item. -/
  | item (index step : Nat) (name : String) (cause : StepError)
  /-- The pipeline of a map panicked for an item. -/
  | aborted (message : String)
  deriving DecidableEq, Repr

namespace StepError

/-- The word for the kind of an error. -/
def kind : StepError → String
  | .value (.path (.notFound _)) => "NotFound"
  | .value (.path (.typeMismatch ..)) => "TypeMismatch"
  | .value (.path (.malformed ..)) => "InvalidPath"
  | .value (.format _) => "FormatError"
  | .value (.stringToJson ..) => "IntrinsicError"
  | .call .. => "AdapterError"
  | .timeout _ => "TimeoutExceeded"
  | .item .. => "MapItemFailure"
  | .aborted _ => "BranchAborted"

/-- The wording of an error of a path in reports on steps. -/
def pathMessage : PathError → String
  | .notFound path => "path '" ++ path.text ++ "' not found"
  | .typeMismatch path expected found =>
    "type mismatch at '" ++ path.text ++ "': expected " ++ expected.name ++ ", found " ++ found.name
  | error => error.message

/-- The wording of an error. -/
def message : StepError → String
  | .value (.path error) => pathMessage error
  | .value (.stringToJson p fault) =>
    Expression.stringToJsonName ++ " failed at '" ++ p.text ++ "': " ++ fault.message
  | .value error => error.message
  | .call operation error => "adapter '" ++ operation ++ "' failed: " ++ error.message
  | .timeout budgetMs =>
    "run exceeded its budget of " ++ Decimal.Layout.plain.write (seconds budgetMs) ++ "s"
  | .item index step name cause =>
    "map item " ++ Decimal.text index ++ " failed at step " ++ Decimal.text step
      ++ " ('" ++ name ++ "'): " ++ cause.message
  | .aborted message => "map branch aborted: " ++ message

/-- The innermost error. -/
def rootCause : StepError → StepError
  | .item _ _ _ cause => cause.rootCause
  | error => error

/-- An error as a document; the error of an item holds its cause. -/
def toJson : StepError → Json
  | .item index step name cause =>
    .ofFields [("kind", .string (kind (.item index step name cause))),
      ("message", .string (message (.item index step name cause))),
      ("item_index", .ofNat index), ("step_index", .ofNat step), ("step_name", .string name),
      ("cause", cause.toJson)]
  | error => .ofFields [("kind", .string error.kind), ("message", .string error.message)]

/-- The error of a path of the context. -/
def ofPath (error : PathError) : StepError :=
  .value (.path error)

end StepError

/-- A step of a pipeline that failed. -/
structure StepFailure where
  /-- Its position in the pipeline. -/
  index : Nat
  name : String
  error : StepError
  deriving DecidableEq, Repr

/-- The error of a map whose pipeline failed for an item. -/
def StepFailure.ofItem (item : Nat) (failure : StepFailure) : StepError :=
  .item item failure.index failure.name failure.error

end Conveyor
