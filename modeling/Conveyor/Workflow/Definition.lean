import Conveyor.Store.Tree
import Conveyor.Workflow.Nodes
import Conveyor.Workflow.Remarks
import Conveyor.Workflow.Writing
import Conveyor.Yaml.Node.Parser
import Conveyor.Yaml.Writer

/-!
# Definitions of workflows

A definition is a text of YAML that describes a workflow. It is parsed and checked, and what is told
meanwhile is part of the result.
-/

namespace Conveyor

/-- Why there is no workflow. -/
inductive DefinitionError where
  | unreadable (path : String) (fault : FileFault)
  | malformed (error : Yaml.ReadError)
  /-- The workflow has problems, which the text lists. -/
  | invalid (problems : String)
  | unwritable (path : String) (fault : FileFault)
  deriving Repr

/-- The wording of an error. -/
def DefinitionError.message : DefinitionError → String
  | .unreadable path fault =>
    "Failed to read workflow file '" ++ path ++ "': " ++ fault.message
      ++ ". Check that the file exists and is readable."
  | .malformed error =>
    "Failed to parse workflow definition: " ++ error.text true ++ ". Check the file format."
  | .invalid problems => "Invalid workflow definition:\n" ++ problems
  | .unwritable path fault =>
    "Failed to write workflow file '" ++ path ++ "': " ++ fault.message

namespace Definition

/-- Parses and checks a definition. -/
def parse (text : String) : List LogLine × Except DefinitionError Workflow :=
  let loaded : LogLine :=
    .debug ("Definition content loaded (" ++ Decimal.text text.utf8ByteSize ++ " bytes)")
  match Workflow.ofDocument (.ofText text) with
  | .error e => ([loaded], .error (.malformed e))
  | .ok w =>
    let parsed : LogLine := .info ("Parsed workflow '" ++ w.name ++ "': " ++ w.extent)
    (loaded :: parsed :: w.checkLines, (w.validate.mapError .invalid).map fun () => w)

/-- The definition of a workflow. -/
def write (w : Workflow) : String :=
  Yaml.write w.toContent

/-- Reads a file with a definition, with its path as it is given and the route there. -/
def load (tree : Tree) (path : String) (route : Route) :
    List LogLine × Except DefinitionError Workflow :=
  let loading : LogLine := .info ("Loading workflow from: " ++ path)
  match tree.readText route with
  | .error fault => ([loading], .error (.unreadable path fault))
  | .ok text =>
    let (lines, result) := parse text
    (loading :: lines, result)

/-- Writes the definition of a workflow into a file. -/
def save (tree : Tree) (path : String) (route : Route) (w : Workflow) :
    List LogLine × Except DefinitionError Tree :=
  match tree.write route (write w).toUTF8 with
  | .error fault => ([], .error (.unwritable path fault))
  | .ok tree => ([.info ("Workflow saved to: " ++ path)], .ok tree)

end Definition

end Conveyor
