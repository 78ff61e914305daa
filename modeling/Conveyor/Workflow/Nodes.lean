import Conveyor.Workflow.Reading
import Conveyor.Yaml.Reading

/-!
# Reading workflows from documents

The fields of a workflow are read where they stand in the document. What is inside a step is set
aside as content until the kind of the step is known, so that an error there has the place of the
list of steps.
-/

namespace Conveyor

open Yaml (Reader Node Trail Crumb maxDepth)
open Yaml.Reader

/-! ### Steps -/

/-- The name of what a step is read as. -/
def stepName : String := "internally tagged enum Step"

/-- Reads the kind of a step. -/
def readStepTag (trail : Trail) (node : Node) : Reader StepTag := do
  let node ← follow node
  located node.mark trail do
    match node with
    | .scalar _ text _ => ofExcept (StepTag.ofContent .direct (.string text))
    | node => Yaml.wrongNode "variant identifier" node

/-- Any value that is a key of a step. -/
def keyVisitor : Yaml.Visitor Content :=
  { Yaml.contentVisitor with expected := "a type tag \x60type\x60 or any other value" }

/-- Reads the entries of a step, with its kind apart from the others. -/
def readStepEntries (depth : Nat) (trail : Trail) :
    List (Node × Node) → Option StepTag → List (Content × Content) →
    Reader (StepTag × List (Content × Content))
  | [], some tag, acc => return (tag, acc.reverse)
  | [], none, _ => wrong (.missingField "type")
  | (key, value) :: entries, tag, acc => do
    match tag, ← Yaml.readAny keyVisitor depth false trail key with
    | none, .string "type" =>
      let tag ← readStepTag (.ofKey key :: trail) value
      readStepEntries depth trail entries (some tag) acc
    | some _, .string "type" => wrong (.duplicateField "type")
    | tag, keyContent =>
      let content ← Yaml.readContent depth (.ofKey key :: trail) value
      readStepEntries depth trail entries tag ((keyContent, content) :: acc)

/-- Reads the kind of a step, and its fields as content. -/
def readStepParts (depth : Nat) (trail : Trail) (node : Node) : Reader (StepTag × Content) := do
  let node ← follow node
  located node.mark trail do
    match node with
    | .scalar header _ _ =>
      if header.ownTag?.isSome then wrong (.wrongType .tagged stepName)
      else Yaml.wrongNode stepName node
    | .sequence header items =>
      if header.ownTag?.isSome then wrong (.wrongType .tagged stepName)
      else
        enter header.mark depth fun depth =>
          match items with
          | [] => wrong (.missingField "type")
          | first :: rest => do
            let tag ← readStepTag (.item 0 :: trail) first
            let fields ← (rest.zipIdx 1).mapM fun (item, i) =>
              Yaml.readContent depth (.item i :: trail) item
            return (tag, .sequence fields)
    | .mapping header entries =>
      if header.ownTag?.isSome then wrong (.wrongType .tagged stepName)
      else
        enter header.mark depth fun depth => do
          let (tag, entries) ← readStepEntries depth trail entries none []
          return (tag, .mapping entries)
    | .alias .. | .broken => cut

/-- Reads a step. -/
def readStep (depth : Nat) (trail : Trail) (node : Node) : Reader Step := do
  let (tag, fields) ← readStepParts depth trail node
  ofExcept (Step.ofFields tag fields)

/-! ### Workflows -/

/-- Reads a field of a workflow. -/
def readWorkflowField (depth : Nat) (trail : Trail) (name : String) (node : Node)
    (r : WorkflowFields) : Reader WorkflowFields :=
  match name with
  | "name" => do return { r with name := some (← Yaml.readText "a string" trail node) }
  | "comment" => do
    return { r with comment := ← Yaml.readOption (Yaml.readText "a string" trail) node }
  | "timeout_secs" => do
    let secs ← Yaml.readOption (Yaml.readNatural 0x10000000000000000 "u64" trail) node
    return { r with timeoutSecs := secs.map Nat.toUInt64 }
  | _ => do return { r with steps := some (← Yaml.readSequence depth trail readStep node) }

/-- Reads the entries of a workflow; a field may be given once. -/
def readWorkflowEntries (depth : Nat) :
    List (Node × Node) → List String → WorkflowFields → Reader WorkflowFields
  | [], _, acc => return acc
  | (key, value) :: entries, seen, acc => do
    let name ← Yaml.readText "field identifier" [] key
    if (Workflow.record.fields.map Prod.fst).contains name then
      if seen.contains name then wrong (.duplicateField name)
      let acc ← readWorkflowField depth [.ofKey key] name value acc
      readWorkflowEntries depth entries (name :: seen) acc
    else
      Yaml.skipValue value
      readWorkflowEntries depth entries seen acc

/-- Reads a workflow from the outermost node of a document. Unlike in other data a list of its
fields is no workflow. -/
def readWorkflow (node : Node) : Reader Workflow :=
  located node.mark [] do
    match node with
    | .mapping header entries =>
      enter header.mark maxDepth fun depth => do
        ofExcept (← readWorkflowEntries depth entries [] {}).finish
    | node =>
      if node.isEmpty then ofExcept ({} : WorkflowFields).finish
      else Yaml.wrongNode "struct Workflow" node

/-- Reads a workflow from a document. -/
def Workflow.ofDocument (d : Yaml.Document) : Except Yaml.ReadError Workflow :=
  d.read fun
    | some node => readWorkflow node
    | none => located d.stop [] (ofExcept ({} : WorkflowFields).finish)

end Conveyor
