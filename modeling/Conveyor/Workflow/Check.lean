import Conveyor.Workflow.Basic

/-!
# Checking workflows

`Workflow.problems` lists what is wrong with a workflow before it runs: blank or repeated names,
empty pipelines, tasks without an operation, maps that allow no item at once, maps inside maps, and
a time limit of zero. With a list of known operations it also reports tasks that name another one.
-/

namespace Conveyor

/-- Something wrong with a workflow. -/
inductive Problem where
  | emptyWorkflowName
  | emptyPipeline (owner : String)
  | duplicateStepName (name : String)
  | emptyStepName
  | emptyAdapter (step : String)
  | unknownAdapter (step adapter : String)
  | invalidConcurrency (step : String)
  | nestedMap (step parent : String)
  | zeroTimeout
  deriving DecidableEq, Repr

/-- The wording of a problem. -/
def Problem.message : Problem → String
  | .emptyWorkflowName => "Workflow has an empty name"
  | .emptyPipeline owner => "Pipeline '" ++ owner ++ "' has no steps"
  | .duplicateStepName name => "Duplicate step name: '" ++ name ++ "'"
  | .emptyStepName => "Step has empty or whitespace-only name"
  | .emptyAdapter step => "Task '" ++ step ++ "' has no adapter specified"
  | .unknownAdapter step adapter =>
    "Task '" ++ step ++ "' references unknown adapter '" ++ adapter ++ "'"
  | .invalidConcurrency step => "Map '" ++ step ++ "' must allow at least one concurrent item"
  | .nestedMap step parent =>
    "Map '" ++ step ++ "' is nested inside map '" ++ parent ++ "' (only one level is supported)"
  | .zeroTimeout => "Workflow timeout must be greater than zero"

namespace Step

/-- The problems of the fields of a step; of a step without a name only that. -/
def fieldProblems (known : Option (List String)) (step : Step) : List Problem :=
  if Text.allBlank step.name then [.emptyStepName]
  else
    match step with
    | .pass _ => []
    | .task s =>
      if Text.allBlank s.adapter then [.emptyAdapter s.name]
      else if known.all (·.contains s.adapter) then []
      else [.unknownAdapter s.name s.adapter]
    | .map s _ => if s.maxConcurrency = some 0 then [.invalidConcurrency s.name] else []

/-- The problem of a name that an earlier step of the pipeline has; blank names do not count. -/
def nameProblems (seen : List String) (step : Step) : List Problem :=
  if !Text.allBlank step.name && seen.contains step.name then [.duplicateStepName step.name] else []

end Step

namespace Pipeline

/-- The problems of the steps of the pipeline inside a map, in which maps are not looked into. -/
def innerProblems (known : Option (List String)) (parent : String) (seen : List String) :
    List Step → List Problem
  | [] => []
  | step :: steps =>
    step.fieldProblems known ++ step.nameProblems seen
      ++ (match step with
          | .map s _ => [.nestedMap s.name parent]
          | _ => [])
      ++ innerProblems known parent (step.name :: seen) steps

/-- The problems of the pipeline inside a map. -/
def iteratorProblems (known : Option (List String)) (parent : String) (steps : List Step) :
    List Problem :=
  if steps.isEmpty then [.emptyPipeline parent] else innerProblems known parent [] steps

/-- The problems of the steps of a pipeline at the top and of the pipelines inside its maps. -/
def stepProblems (known : Option (List String)) (seen : List String) :
    List Step → List Problem
  | [] => []
  | step :: steps =>
    step.fieldProblems known ++ step.nameProblems seen
      ++ (match step with
          | .map s iterator => iteratorProblems known s.name iterator
          | _ => [])
      ++ stepProblems known (step.name :: seen) steps

end Pipeline

namespace Workflow

/-- Everything wrong with a workflow, in the order of its parts. -/
def problems (known : Option (List String)) (w : Workflow) : List Problem :=
  (if Text.allBlank w.name then [.emptyWorkflowName] else [])
    ++ (if w.timeoutSecs = some 0 then [.zeroTimeout] else [])
    ++ (if w.steps.isEmpty then [.emptyPipeline w.name]
        else Pipeline.stepProblems known [] w.steps)

/-- Accepts a workflow without problems; otherwise the error holds their messages, one a line. -/
def validate (w : Workflow) : Except String Unit :=
  match w.problems none with
  | [] => .ok ()
  | problems => .error ("\n".intercalate (problems.map Problem.message))

/-- The messages of the problems of a workflow for a list of known operations. -/
def quickProblems (known : List String) (w : Workflow) : List String :=
  (w.problems (some known)).map Problem.message

end Workflow

end Conveyor
