import Conveyor.Payload
import Conveyor.Text.Blank
import Conveyor.Workflow.ResultPath
import Conveyor.Workflow.Retry

/-!
# Steps

A step computes a payload, calls an operation of an adapter, or runs a pipeline once for each item
of a list. A pipeline is a list of steps.
-/

namespace Conveyor

/-- A step that puts a payload into the context; without one it changes nothing. -/
structure PassStep where
  name : String
  comment : Option String
  parameters : Option Payload
  resultPath : ResultPath
  deriving DecidableEq, Repr

/-- A step that calls an operation of the adapter. -/
structure TaskStep where
  name : String
  comment : Option String
  /-- The name of the operation. -/
  adapter : String
  /-- The input of the call; the whole context without it. -/
  parameters : Option Payload
  /-- What is made of the output before it goes into the context. -/
  resultSelector : Option Payload
  resultPath : ResultPath
  retry : Option RetryPolicy
  deriving DecidableEq, Repr

/-- What a map step says apart from its pipeline. -/
structure MapHead where
  name : String
  comment : Option String
  /-- The path to the list of items. -/
  itemsPath : Path
  /-- How many items may be in work at once; all of them without it. -/
  maxConcurrency : Option UInt64
  resultPath : ResultPath
  deriving DecidableEq, Repr

/-- A step of a pipeline. -/
inductive Step where
  | pass (step : PassStep)
  | task (step : TaskStep)
  | map (head : MapHead) (iterator : List Step)
  deriving Repr

/-- A sequence of steps. -/
abbrev Pipeline := List Step

namespace Step

/-! ### Equality -/

mutual

/-- Whether two steps are equal. -/
def beq : Step → Step → Bool
  | .pass a, .pass b => a == b
  | .task a, .task b => a == b
  | .map h as, .map g bs => h == g && beqPipeline as bs
  | _, _ => false

/-- Whether two pipelines are equal. -/
def beqPipeline : List Step → List Step → Bool
  | [], [] => true
  | a :: as, b :: bs => beq a b && beqPipeline as bs
  | _, _ => false

end

mutual

theorem beq_iff : ∀ a b : Step, beq a b = true ↔ a = b
  | .pass _, b => by cases b <;> simp [beq]
  | .task _, b => by cases b <;> simp [beq]
  | .map _ as, b => by cases b <;> simp [beq, beqPipeline_iff as]

theorem beqPipeline_iff : ∀ as bs : List Step, beqPipeline as bs = true ↔ as = bs
  | [], bs => by cases bs <;> simp [beqPipeline]
  | a :: as, bs => by
    cases bs with
    | nil => simp [beqPipeline]
    | cons b bs => simp [beqPipeline, beq_iff a, beqPipeline_iff as]

end

instance : DecidableEq Step := fun a b => decidable_of_iff _ (beq_iff a b)

/-! ### Parts -/

/-- The name of a step. -/
def name : Step → String
  | .pass s => s.name
  | .task s => s.name
  | .map s _ => s.name

/-- The comment of a step. -/
def comment : Step → Option String
  | .pass s => s.comment
  | .task s => s.comment
  | .map s _ => s.comment

/-- Where the result of a step goes. -/
def resultPath : Step → ResultPath
  | .pass s => s.resultPath
  | .task s => s.resultPath
  | .map s _ => s.resultPath

/-- The word for the kind of a step. -/
def kind : Step → String
  | .pass _ => "pass"
  | .task _ => "task"
  | .map .. => "map"

/-! ### Building steps -/

/-- A pass step that changes nothing. -/
def ofName (name : String) : Step :=
  .pass ⟨Text.trimmed name, none, none, .replace⟩

/-- A task step that calls an operation on the whole context. -/
def ofAdapter (name adapter : String) : Step :=
  .task ⟨Text.trimmed name, none, Text.trimmed adapter, none, none, .replace, none⟩

/-- A map step over the items at a path, all at once. -/
def overItems (name : String) (itemsPath : Path) (iterator : Pipeline) : Step :=
  .map ⟨Text.trimmed name, none, itemsPath, none, .replace⟩ iterator

/-- Sets the payload of a pass or task step. -/
def withParameters (parameters : Payload) : Step → Step
  | .pass s => .pass { s with parameters := some parameters }
  | .task s => .task { s with parameters := some parameters }
  | s => s

/-- Sets the result selector of a task step. -/
def withResultSelector (selector : Payload) : Step → Step
  | .task s => .task { s with resultSelector := some selector }
  | s => s

/-- Sets where the result goes. -/
def withResultPath (resultPath : ResultPath) : Step → Step
  | .pass s => .pass { s with resultPath }
  | .task s => .task { s with resultPath }
  | .map s iterator => .map { s with resultPath } iterator

/-- Sets how many items of a map step may be in work at once. -/
def withMaxConcurrency (limit : UInt64) : Step → Step
  | .map s iterator => .map { s with maxConcurrency := some limit } iterator
  | s => s

/-- Sets the retry policy of a task step. -/
def withRetry (retry : RetryPolicy) : Step → Step
  | .task s => .task { s with retry := some retry }
  | s => s

end Step

namespace Pipeline

/-- The first step with a name. -/
def find? (name : String) (steps : Pipeline) : Option Step :=
  List.find? (fun s => s.name == name) steps

/-- The position of the first step with a name. -/
def position? (name : String) (steps : Pipeline) : Option Nat :=
  List.findIdx? (fun s => s.name == name) steps

end Pipeline

end Conveyor
