import Conveyor.Workflow.Basic

/-!
# Plans

What a workflow would do, one line for each step, with the steps of a map further to the right.
-/

namespace Conveyor.Command

/-- What a plan tells of a step besides its name and kind. -/
def planDetail : Step → String
  | .pass _ => ""
  | .task s => " -> " ++ s.adapter
  | .map s _ =>
    let limit := (s.maxConcurrency.map fun n => Decimal.text n.toNat).getD "unbounded"
    " over " ++ s.itemsPath.text ++ " (max concurrency: " ++ limit ++ ")"

/-- The line of a step at a position. -/
def planLine (depth index : Nat) (step : Step) : String :=
  String.ofList (List.replicate (2 * depth + 2) ' ') ++ Decimal.text index ++ ". " ++ step.name
    ++ " [" ++ step.kind ++ "]" ++ planDetail step ++ "  => " ++ step.resultPath.text

mutual

/-- The lines of a step and of the steps inside it. -/
def stepPlan (depth index : Nat) : Step → List String
  | step@(.map _ iterator) => planLine depth index step :: planFrom (depth + 1) 0 iterator
  | step => [planLine depth index step]

/-- The lines of steps from a position on. -/
def planFrom (depth index : Nat) : List Step → List String
  | [] => []
  | step :: steps => stepPlan depth index step ++ planFrom depth (index + 1) steps

end

/-- The plan of a workflow with a budget in milliseconds. -/
def plan (w : Workflow) (budgetMs : Option Nat) : List String :=
  ("Plan for '" ++ w.name ++ "':") :: planFrom 0 0 w.steps
    ++ ["",
      (match budgetMs with
       | some ms => "Budget: " ++ Decimal.text (ms / 1000) ++ "s"
       | none => "Budget: none"),
      "✓ Workflow is valid"]

end Conveyor.Command
