import Conveyor.Run.Activity
import Conveyor.Workflow.Basic

/-!
# Steps as activities

`Pipeline.activity` is what a pipeline does to a context, step by step. Each step has a name in the
timeline, made of the names of the steps and items around it.
-/

namespace Conveyor

/-! ### Pass steps -/

/-- The context after a pass step. -/
def PassStep.apply (s : PassStep) (context : Json) : Except (Fault StepError) Json :=
  match s.parameters with
  | none => .ok context
  | some payload => do
    let value ← (payload.resolve context).mapError fun e => .error (.value e)
    (s.resultPath.apply context value).mapError (.map .ofPath)

/-! ### Task steps -/

namespace TaskStep

/-- The input of the calls of a task. -/
def input (s : TaskStep) (context : Json) : Except StepError Json :=
  match s.parameters with
  | none => .ok context
  | some payload => (payload.resolve context).mapError .value

/-- The context after a call that had an output. -/
def finish (s : TaskStep) (context output : Json) : Except (Fault StepError) Json := do
  let result ← match s.resultSelector with
    | none => pure output
    | some selector => (selector.resolve output).mapError fun e => .error (.value e)
  (s.resultPath.apply context result).mapError (.map .ofPath)

/-- The number of calls that a task makes at most. -/
def attempts (s : TaskStep) : Nat :=
  (s.retry.map RetryPolicy.attempts).getD 1

/-- The pause in milliseconds after a failed attempt. -/
def delayAfter (s : TaskStep) (attempt : Nat) : Nat :=
  (s.retry.map fun r => (r.delayAfter attempt.toUInt32).toNat).getD 0

/-- The line on a failed attempt that is not the last. -/
def retryLine (s : TaskStep) (attempt : Nat) (error : CallError) : LogLine :=
  .warn ("Step '" ++ s.name ++ "' attempt " ++ Decimal.text attempt ++ "/"
    ++ Decimal.text s.attempts ++ " failed: " ++ error.message ++ " (retrying in "
    ++ Decimal.text (s.delayAfter attempt) ++ " ms)")

/-- Calls the operation until it succeeds, `retries` times more at most. -/
def callActivity (s : TaskStep) (input : Json) (next : Except StepError Json → Activity) :
    (retries attempt : Nat) → Activity
  | retries, attempt =>
    .call s.adapter input fun
      | .ok output =>
        .say (.debug ("Step '" ++ s.name ++ "' adapter '" ++ s.adapter ++ "' succeeded"))
          (next (.ok output))
      | .error error =>
        match retries with
        | 0 => next (.error (.call s.adapter error))
        | retries + 1 =>
          .say (s.retryLine attempt error)
            (.pause (s.delayAfter attempt) (callActivity s input next retries (attempt + 1)))

/-- What a task does. -/
def activity (s : TaskStep) (context : Json) (next : Except StepError Json → Activity) : Activity :=
  match s.input context with
  | .error error => next (.error error)
  | .ok input => callActivity s input (.finishWith (s.finish context) next) (s.attempts - 1) 1

end TaskStep

/-! ### Map steps -/

namespace MapHead

/-- The items of a map. -/
def items (s : MapHead) (context : Json) : Except StepError (List Json) :=
  match s.itemsPath.read context with
  | .ok (.array items) => .ok items
  | .ok other => .error (.ofPath (.typeMismatch s.itemsPath .array other.kind))
  | .error error => .error (.ofPath error)

/-- The number of items of `count` that may be in work at once. -/
def limit (s : MapHead) (count : Nat) : Nat :=
  match s.maxConcurrency with
  | some limit => max 1 (min limit.toNat count)
  | none => max 1 count

/-- The context after all items. -/
def finish (s : MapHead) (context : Json) (outputs : List Json) : Except (Fault StepError) Json :=
  (s.resultPath.apply context (.array outputs)).mapError (.map .ofPath)

/-- The line on the beginning of a map. -/
def startLine (id : String) (count limit : Nat) : LogLine :=
  .info ("Map '" ++ id ++ "' over " ++ Decimal.text count ++ " items (max concurrency: "
    ++ Decimal.text limit ++ ")")

/-- The line on the end of a map of which a branch failed. -/
def collapseLine (id : String) (c : Collapse) : LogLine :=
  .warn ("Map '" ++ id ++ "' item " ++ Decimal.text c.item ++ " failed; abandoning "
    ++ Decimal.text c.inFlight ++ " in-flight and " ++ Decimal.text c.pending ++ " pending items")

/-- What follows the branches of a map. -/
def afterBranches (id : String) (next : Except StepError (List Json) → Activity) :
    Except Collapse (List Json) → Activity
  | .ok outputs => next (.ok outputs)
  | .error c =>
    match c.fault with
    | .error _ => .say (collapseLine id c) (next (.error c.toError))
    | .panic _ => next (.error c.toError)

/-- What a map does with its items, with `branch` for what is done with each of them. -/
def fanOut (s : MapHead) (id : String) (branch : Nat → Json → Activity) (items : List Json)
    (next : Except StepError (List Json) → Activity) : Activity :=
  let count := items.length
  if count = 0 then .say (.debug ("Map '" ++ id ++ "' has no items")) (next (.ok []))
  else
    .say (startLine id count (s.limit count))
      (.fork count (s.limit count) (fun i => branch i (items.getD i .null))
        (afterBranches id next))

/-- What a map does, with `branch` for what is done with an item. -/
def activity (s : MapHead) (id : String) (branch : Nat → Json → Activity) (context : Json)
    (next : Except StepError Json → Activity) : Activity :=
  match s.items context with
  | .error error => next (.error error)
  | .ok items => s.fanOut id branch items (.finishWith (s.finish context) next)

end MapHead

/-! ### Pipelines -/

/-- The name of a step in the timeline, inside a scope; the top has the empty scope. -/
def scopedId (scope name : String) : String :=
  if scope.isEmpty then name else scope ++ "/" ++ name

/-- The name of a branch of a map in the timeline. -/
def branchId (id : String) (item : Nat) : String :=
  id ++ "[" ++ Decimal.text item ++ "]"

/-- The line on the beginning of a step. -/
def Step.startLine (s : Step) (index : Nat) (id : String) : LogLine :=
  .debug ("Step " ++ Decimal.text index ++ " '" ++ id ++ "' (" ++ s.kind ++ ") started")

/-- The line on the end of a step; inside a scope it matters less. -/
def stepEndLine (scope id : String) : Option StepError → LogLine
  | none => ⟨if scope.isEmpty then .info else .debug, "Step '" ++ id ++ "' completed"⟩
  | some error =>
    ⟨if scope.isEmpty then .error else .debug, "Step '" ++ id ++ "' failed: " ++ error.message⟩

/-- What is done with an item, with `pipeline` for what the pipeline of the map does. -/
def branchActivity (id : String)
    (pipeline : String → Json → (Except StepFailure Json → Activity) → Activity)
    (item : Nat) (context : Json) : Activity :=
  let id := branchId id item
  .mark id .started (pipeline id context fun
    | .ok context => .mark id .completed (.ended (.ok context))
    | .error failure => .mark id .failed (.ended (.error failure)))

mutual

/-- What a step does, under its name in the timeline. -/
def Step.activity (id : String) : Step → Json → (Except StepError Json → Activity) → Activity
  | .pass s, context, next => .onward next (s.apply context)
  | .task s, context, next => s.activity context next
  | .map head iterator, context, next =>
    head.activity id (branchActivity id fun scope context next =>
      pipelineActivity scope 0 iterator context next) context next

/-- What the steps from a position on do. -/
def pipelineActivity (scope : String) (index : Nat) :
    List Step → Json → (Except StepFailure Json → Activity) → Activity
  | [], context, next => next (.ok context)
  | s :: steps, context, next =>
    let id := scopedId scope s.name
    .note (.reached index context)
      (.mark id .started
        (.say (s.startLine index id)
          (Step.activity id s context fun
            | .ok context =>
              .mark id .completed
                (.say (stepEndLine scope id none)
                  (pipelineActivity scope (index + 1) steps context next))
            | .error error =>
              .mark id .failed
                (.say (stepEndLine scope id (some error))
                  (next (.error ⟨index, s.name, error⟩))))))

end

/-- What a pipeline does to a context. -/
def Pipeline.activity (scope : String) (steps : Pipeline) (context : Json) : Activity :=
  pipelineActivity scope 0 steps context .ended

end Conveyor
