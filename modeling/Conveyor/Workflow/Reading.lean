import Conveyor.Content.Reading
import Conveyor.Workflow.Basic

/-!
# Reading workflows from content

The fields of workflows, steps and retry policies by their names. A step is a record with a tag in
its field `type`, or a sequence that begins with the tag.
-/

namespace Conveyor

open Content (Source Record required toOption toText toNatural toReal toRecord)

/-- Reads a path. -/
def Content.toPath (c : Content) : Except ContentError Path := do
  let text ← c.toText
  (Path.parse text).mapError .path

/-- Reads a result path. -/
def Content.toResultPath (c : Content) : Except ContentError ResultPath := do
  let text ← c.toText
  (ResultPath.parse text).mapError .path

/-- Reads a payload. -/
def Content.toPayload (c : Content) : Except ContentError Payload := do
  let doc ← c.toJson
  (Payload.ofJson doc).mapError .path

/-! ### Retry policies -/

/-- The fields of a retry policy; those that are left out have standard values. -/
def RetryPolicy.record : Record RetryPolicy RetryPolicy where
  name := "RetryPolicy"
  fields := [("max_attempts", false), ("interval_ms", false), ("backoff_rate", false)]
  start := .standard
  set name c r :=
    match name with
    | "max_attempts" => do
      return { r with maxAttempts := (← toNatural 0x100000000 "u32" c).toUInt32 }
    | "interval_ms" => do
      return { r with intervalMs := (← toNatural 0x10000000000000000 "u64" c).toUInt64 }
    | _ => do return { r with backoffRate := ← toReal c }
  finish := .ok

/-- Reads a retry policy. -/
def RetryPolicy.ofContent (source : Source) (c : Content) : Except ContentError RetryPolicy :=
  toRecord record source c

/-! ### Steps -/

/-- The fields of any step while they are being read. -/
structure StepFields where
  name : Option String := none
  comment : Option String := none
  adapter : Option String := none
  parameters : Option Payload := none
  resultSelector : Option Payload := none
  itemsPath : Option Path := none
  maxConcurrency : Option UInt64 := none
  iterator : Option Pipeline := none
  resultPath : ResultPath := .replace
  retry : Option RetryPolicy := none

/-- Reads a field of a step, with `pipeline` for the pipeline inside a map. -/
def StepFields.set (pipeline : Content → Except ContentError Pipeline) (name : String) (c : Content)
    (r : StepFields) : Except ContentError StepFields :=
  match name with
  | "name" => do return { r with name := some (← toText c) }
  | "comment" => do return { r with comment := ← toOption toText c }
  | "adapter" => do return { r with adapter := some (← toText c) }
  | "parameters" => do return { r with parameters := ← toOption Content.toPayload c }
  | "result_selector" => do return { r with resultSelector := ← toOption Content.toPayload c }
  | "items_path" => do return { r with itemsPath := some (← c.toPath) }
  | "max_concurrency" => do
    let limit ← toOption (toNatural 0x10000000000000000 "usize") c
    return { r with maxConcurrency := limit.map Nat.toUInt64 }
  | "iterator" => do return { r with iterator := some (← pipeline c) }
  | "result_path" => do return { r with resultPath := ← c.toResultPath }
  | _ => do return { r with retry := ← toOption (RetryPolicy.ofContent .buffered) c }

/-- The kinds of steps. -/
inductive StepTag where
  | pass
  | task
  | map
  deriving DecidableEq, Repr

/-- The words for the kinds of steps. -/
def StepTag.words : List String := ["pass", "task", "map"]

/-- Reads the kind of a step. From a value that was set aside it may be given by number. -/
def StepTag.ofContent (source : Source) : Content → Except ContentError StepTag
  | .string "pass" => .ok .pass
  | .string "task" => .ok .task
  | .string "map" => .ok .map
  | .string s => .error (.unknownVariant s words)
  | c@(.integer i) =>
    match source, i with
    | .buffered, 0 => .ok .pass
    | .buffered, 1 => .ok .task
    | .buffered, 2 => .ok .map
    | .buffered, i =>
      if 0 ≤ i then .error (.wrongValue (.integer i) "variant index 0 <= i < 3")
      else c.mismatch "variant identifier"
    | .direct, _ => c.mismatch "variant identifier"
  | c => c.mismatch "variant identifier"

/-- The record of a pass step. -/
def PassStep.record (pipeline : Content → Except ContentError Pipeline) :
    Record StepFields Step where
  name := "PassStep"
  fields := [("name", true), ("comment", false), ("parameters", false), ("result_path", false)]
  start := {}
  set := StepFields.set pipeline
  finish r := do
    let name ← required "name" r.name
    return .pass ⟨name, r.comment, r.parameters, r.resultPath⟩

/-- The record of a task step. -/
def TaskStep.record (pipeline : Content → Except ContentError Pipeline) :
    Record StepFields Step where
  name := "TaskStep"
  fields := [("name", true), ("comment", false), ("adapter", true), ("parameters", false),
    ("result_selector", false), ("result_path", false), ("retry", false)]
  start := {}
  set := StepFields.set pipeline
  finish r := do
    let name ← required "name" r.name
    let adapter ← required "adapter" r.adapter
    return .task ⟨name, r.comment, adapter, r.parameters, r.resultSelector, r.resultPath, r.retry⟩

/-- The record of a map step. -/
def MapHead.record (pipeline : Content → Except ContentError Pipeline) :
    Record StepFields Step where
  name := "MapStep"
  fields := [("name", true), ("comment", false), ("items_path", true), ("max_concurrency", false),
    ("iterator", true), ("result_path", false)]
  start := {}
  set := StepFields.set pipeline
  finish r := do
    let name ← required "name" r.name
    let itemsPath ← required "items_path" r.itemsPath
    let iterator ← required "iterator" r.iterator
    return .map ⟨name, r.comment, itemsPath, r.maxConcurrency, r.resultPath⟩ iterator

/-- Takes the entry with the tag out of the entries of a mapping. -/
def splitTag (source : Source) :
    List (Content × Content) → Option StepTag → List (Content × Content) →
    Except ContentError (StepTag × List (Content × Content))
  | [], some tag, acc => .ok (tag, acc.reverse)
  | [], none, _ => .error (.missingField "type")
  | (.string "type", value) :: entries, none, acc => do
    splitTag source entries (some (← StepTag.ofContent source value)) acc
  | (.string "type", _) :: _, some _, _ => .error (.duplicateField "type")
  | entry :: entries, tag, acc => splitTag source entries tag (entry :: acc)

/-- The kind of a step, and its fields without it. -/
def stepParts (source : Source) : Content → Except ContentError (StepTag × Content)
  | .mapping entries => do
    let (tag, entries) ← splitTag source entries none []
    return (tag, .mapping entries)
  | .sequence [] => .error (.missingField "type")
  | .sequence (tag :: items) => do return (← StepTag.ofContent source tag, .sequence items)
  | c => c.mismatch "internally tagged enum Step"

/-- Reads the fields of a step of a known kind. -/
def stepOfFields (pipeline : Content → Except ContentError Pipeline) (tag : StepTag) (c : Content) :
    Except ContentError Step :=
  match tag with
  | .pass => toRecord (PassStep.record pipeline) .buffered c
  | .task => toRecord (TaskStep.record pipeline) .buffered c
  | .map => toRecord (MapHead.record pipeline) .buffered c

/-- Reads a pipeline that was set aside with the step around it, with at most `depth` levels of
maps inside it. -/
def bufferedPipeline : Nat → Content → Except ContentError Pipeline
  | 0, c => c.mismatch "a sequence"
  | depth + 1, .sequence items =>
    items.mapM fun item => do
      let (tag, fields) ← stepParts .buffered item
      stepOfFields (bufferedPipeline depth) tag fields
  | _ + 1, c => c.mismatch "a sequence"

/-- Reads a step of a known kind from its fields. -/
def Step.ofFields (tag : StepTag) (c : Content) : Except ContentError Step :=
  stepOfFields (bufferedPipeline c.depth) tag c

/-- Reads a step. -/
def Step.ofContent (c : Content) : Except ContentError Step := do
  let (tag, fields) ← stepParts .direct c
  ofFields tag fields

/-- Reads a pipeline. -/
def Pipeline.ofContent : Content → Except ContentError Pipeline
  | .sequence items => items.mapM Step.ofContent
  | c => c.mismatch "a sequence"

/-! ### Workflows -/

/-- The fields of a workflow while they are being read. -/
structure WorkflowFields where
  name : Option String := none
  comment : Option String := none
  timeoutSecs : Option UInt64 := none
  steps : Option Pipeline := none

/-- Completes a workflow. -/
def WorkflowFields.finish (r : WorkflowFields) : Except ContentError Workflow := do
  let name ← required "name" r.name
  let steps ← required "steps" r.steps
  return ⟨name, r.comment, r.timeoutSecs, steps⟩

/-- The record of a workflow. -/
def Workflow.record : Record WorkflowFields Workflow where
  name := "Workflow"
  fields := [("name", true), ("comment", false), ("timeout_secs", false), ("steps", true)]
  start := {}
  set name c r :=
    match name with
    | "name" => do return { r with name := some (← toText c) }
    | "comment" => do return { r with comment := ← toOption toText c }
    | "timeout_secs" => do
      let secs ← toOption (toNatural 0x10000000000000000 "u64") c
      return { r with timeoutSecs := secs.map Nat.toUInt64 }
    | _ => do return { r with steps := some (← Pipeline.ofContent c) }
  finish := WorkflowFields.finish

/-- Reads a workflow. -/
def Workflow.ofContent (c : Content) : Except ContentError Workflow :=
  toRecord record .direct c

end Conveyor
