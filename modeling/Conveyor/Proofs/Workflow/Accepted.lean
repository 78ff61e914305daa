import Conveyor.Proofs.Workflow.Parsed
import Conveyor.Proofs.Yaml.Ensures
import Conveyor.Workflow.Definition

/-!
# Workflows that have been accepted

All parts of the steps of a workflow that a definition is parsed to have been read from texts and
documents (`Definition.parsed_of_parse`).
-/

namespace Conveyor

open Yaml (Node Trail Reader)
open Yaml.Reader (Ensures)

theorem readStep_ensures (depth : Nat) (trail : Trail) (node : Node) :
    Ensures (readStep depth trail node) fun s => s.Each .parsed :=
  Ensures.seq fun _ => Ensures.ofExcept fun _ h => Step.each_of_ofFields h

/-- The steps that have been read consist of parts that have been read. -/
def WorkflowFields.Parsed (r : WorkflowFields) : Prop :=
  ∀ steps ∈ r.steps, eachStep .parsed steps

theorem readWorkflowField_ensures {r : WorkflowFields} (hr : r.Parsed) (depth : Nat) (trail : Trail)
    (name : String) (node : Node) :
    Ensures (readWorkflowField depth trail name node r) WorkflowFields.Parsed := by
  unfold readWorkflowField
  split
  · exact Ensures.seq fun _ => Ensures.pure hr
  · exact Ensures.seq fun _ => Ensures.pure hr
  · exact Ensures.seq fun _ => Ensures.pure hr
  · refine Ensures.map (Ensures.readSequence readStep_ensures depth trail node) fun steps h => ?_
    rintro _ ⟨⟩
    exact eachStep_of_forall_mem h

theorem readWorkflowEntries_ensures (depth : Nat) : ∀ (entries : List (Node × Node))
    (seen : List String) {r : WorkflowFields}, r.Parsed →
      Ensures (readWorkflowEntries depth entries seen r) WorkflowFields.Parsed
  | [], _, _, hr => Ensures.pure hr
  | (key, value) :: entries, seen, r, hr => by
    refine Ensures.seq fun name => ?_
    have hfield : Ensures (do
        let r ← readWorkflowField depth [.ofKey key] name value r
        readWorkflowEntries depth entries (name :: seen) r) WorkflowFields.Parsed :=
      Ensures.bind (readWorkflowField_ensures hr depth _ name value) fun r' hr' =>
        readWorkflowEntries_ensures depth entries (name :: seen) hr'
    split
    · -- a field that is given twice is an error
      dsimp only
      split
      · exact Ensures.seq fun _ => hfield
      · exact hfield
    · exact Ensures.seq fun _ => readWorkflowEntries_ensures depth entries seen hr

theorem WorkflowFields.Parsed.finish {r : WorkflowFields} (hr : r.Parsed) {w : Workflow}
    (h : r.finish = .ok w) : eachStep .parsed w.steps := by
  obtain ⟨name, -, h⟩ := Except.bind_eq_ok.mp h
  obtain ⟨steps, hsteps, h⟩ := Except.bind_eq_ok.mp h
  obtain rfl := Except.ok.inj h
  exact hr steps (required_eq_ok hsteps)

theorem readWorkflow_ensures (node : Node) :
    Ensures (readWorkflow node) fun w => eachStep .parsed w.steps := by
  have hempty : WorkflowFields.Parsed {} := nofun
  refine Ensures.located ?_
  cases node with
  | mapping header entries =>
    refine Ensures.enter fun depth => ?_
    exact Ensures.bind (readWorkflowEntries_ensures depth entries [] hempty) fun r hr =>
      Ensures.ofExcept fun w h => hr.finish h
  | _ =>
    dsimp only
    split
    · exact Ensures.ofExcept fun w h => hempty.finish h
    · exact Ensures.wrongNode _ _

theorem Workflow.parsed_of_ofDocument {d : Yaml.Document} {w : Workflow}
    (h : Workflow.ofDocument d = .ok w) : eachStep .parsed w.steps := by
  refine Yaml.Document.read_ensures (P := fun w => eachStep .parsed w.steps) (fun root => ?_) h
  cases root with
  | some node => exact readWorkflow_ensures node
  | none =>
    have hempty : WorkflowFields.Parsed {} := nofun
    exact Ensures.located (Ensures.ofExcept fun w h => hempty.finish h)

/-- The steps of a workflow that is accepted consist of parts that have been read. -/
theorem Definition.parsed_of_parse {text : String} {w : Workflow}
    (h : (Definition.parse text).2 = .ok w) : eachStep .parsed w.steps := by
  unfold Definition.parse at h
  dsimp only at h
  split at h
  · cases h
  · rename_i w' hw'
    obtain ⟨_, -, rfl⟩ := Except.map_eq_ok.mp h
    exact Workflow.parsed_of_ofDocument hw'

end Conveyor
