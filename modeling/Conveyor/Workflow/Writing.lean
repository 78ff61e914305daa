import Conveyor.Content.Reading
import Conveyor.Workflow.Basic

/-!
# Workflows as content

The content that workflows are saved as, with fields in a fixed order. Fields without a value are
left out, except that where a result goes is always written.
-/

namespace Conveyor

namespace Content

/-- A field of a record. -/
def field (name : String) (value : Content) : List (Content × Content) :=
  [(.string name, value)]

/-- A field that is left out without a value. -/
def optionalField (name : String) (write : α → Content) : Option α → List (Content × Content)
  | some a => field name (write a)
  | none => []

/-- Content with texts for keys as a document. -/
def asJson (c : Content) : Json :=
  match c.toJson with
  | .ok doc => doc
  | .error _ => .null

end Content

open Content (field optionalField)

/-- A payload as content. -/
def Payload.toContent (p : Payload) : Content :=
  .ofJson p.toJson

/-- A retry policy as content. -/
def RetryPolicy.toContent (r : RetryPolicy) : Content :=
  .mapping (field "max_attempts" (.integer r.maxAttempts.toNat)
    ++ field "interval_ms" (.integer r.intervalMs.toNat)
    ++ field "backoff_rate" (.real r.backoffRate))

mutual

/-- A step as content. -/
def Step.toContent : Step → Content
  | .pass s =>
    .mapping (field "type" (.string "pass")
      ++ field "name" (.string s.name)
      ++ optionalField "comment" .string s.comment
      ++ optionalField "parameters" Payload.toContent s.parameters
      ++ field "result_path" (.string s.resultPath.text))
  | .task s =>
    .mapping (field "type" (.string "task")
      ++ field "name" (.string s.name)
      ++ optionalField "comment" .string s.comment
      ++ field "adapter" (.string s.adapter)
      ++ optionalField "parameters" Payload.toContent s.parameters
      ++ optionalField "result_selector" Payload.toContent s.resultSelector
      ++ field "result_path" (.string s.resultPath.text)
      ++ optionalField "retry" RetryPolicy.toContent s.retry)
  | .map s iterator =>
    .mapping (field "type" (.string "map")
      ++ field "name" (.string s.name)
      ++ optionalField "comment" .string s.comment
      ++ field "items_path" (.string s.itemsPath.text)
      ++ optionalField "max_concurrency" (fun n => .integer n.toNat) s.maxConcurrency
      ++ field "iterator" (.sequence (pipelineItems iterator))
      ++ field "result_path" (.string s.resultPath.text))

/-- Steps as content. -/
def pipelineItems : List Step → List Content
  | [] => []
  | s :: steps => s.toContent :: pipelineItems steps

end

/-- A workflow as content. -/
def Workflow.toContent (w : Workflow) : Content :=
  .mapping (field "name" (.string w.name)
    ++ optionalField "comment" .string w.comment
    ++ optionalField "timeout_secs" (fun n => .integer n.toNat) w.timeoutSecs
    ++ field "steps" (.sequence (pipelineItems w.steps)))

/-- A step as a document. -/
def Step.toJson (s : Step) : Json :=
  s.toContent.asJson

/-- A workflow as a document. -/
def Workflow.toJson (w : Workflow) : Json :=
  w.toContent.asJson

end Conveyor
