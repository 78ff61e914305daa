import Conveyor.Command.Options
import Conveyor.Command.Plan
import Conveyor.Json.Reader
import Conveyor.Run.Engine
import Conveyor.Store.Files
import Conveyor.Workflow.Definition

/-!
# Sessions of the command

`Session.run` is a whole run of the command on a tree of files: what it writes on the two outputs,
the tree that it leaves, and its exit status. Clocks are outside of it, so the caller says how long
a run took.
-/

namespace Conveyor.Command

/-- The outputs of the command and its files. -/
structure Console where
  /-- The lines on the standard output. -/
  out : List String
  /-- The lines on the standard error. -/
  err : List String
  tree : Tree
  /-- Whether details are logged. -/
  verbose : Bool

/-- What a part of a run of the command does; it may fail with a message, or panic. -/
abbrev Session (α : Type) := ExceptT (Fault String) (StateM Console) α

/-- Fails with a message. -/
def fail (message : String) : Session α :=
  throw (.error message)

/-! ### Outputs -/

/-- Writes lines on the standard output. -/
def print (lines : List String) : Session Unit :=
  modify fun c => { c with out := c.out ++ lines }

/-- Writes lines on the standard error. -/
def complain (lines : List String) : Session Unit :=
  modify fun c => { c with err := c.err ++ lines }

/-- A line of the log as it is written; details are left out unless they are asked for. -/
def logText (verbose : Bool) (line : LogLine) : Option String :=
  match line.level with
  | .error => some ("[ERROR] " ++ line.text)
  | .warn => some ("[WARN] " ++ line.text)
  | .info => some line.text
  | .debug => if verbose then some line.text else none

/-- Logs lines. -/
def log (lines : List LogLine) : Session Unit := do
  complain (lines.filterMap (logText (← get).verbose))

/-! ### The parts of a run -/

/-- The path of a part of the folder of the stores, as it is shown. -/
def joinPath (folder part : String) : String :=
  if folder.isEmpty || part.startsWith "/" then part
  else if folder.endsWith "/" then folder ++ part
  else folder ++ "/" ++ part

/-- The path of the folder of the objects. -/
def Options.objectsPath (o : Options) : String :=
  joinPath o.storeFolder "objects"

/-- The declared tables, or the one that there is without a declaration. -/
def Options.schemas (o : Options) : List (String × String) :=
  if o.tables.isEmpty then [("StepfnExample", "id")] else o.tables

/-- The stores of a run. -/
def Options.store (folder : Place) (o : Options) : FileStore :=
  o.schemas.foldl (fun s (name, key) => s.declare name key)
    ⟨.ofText folder o.objectsPath, .ofText folder (joinPath o.storeFolder "tables"), []⟩

/-- The access that a grant gives. -/
def grantOf (p : AccessPolicy) (text : String) : AccessPolicy :=
  let after (start : String) := (Text.afterStart? start.toList text.toList).map String.ofList
  match after "table:", after "read:" with
  | some table, _ => p.grant (.table table)
  | none, some container => p.grant (.read container)
  | none, none => p.grantReadWrite text

/-- The policy of a run; without grants everything is allowed. -/
def Options.policy (o : Options) : AccessPolicy :=
  if o.grants.isEmpty then .allowAll else o.grants.foldl grantOf .denyAll

/-- The path of the file of an object, as it is shown. -/
def Options.filePath (o : Options) (object : ObjectRef) : String :=
  joinPath (joinPath o.objectsPath object.container) object.key

/-- The line on what a call did to the files. -/
def Options.deedLine (o : Options) : Deed → String
  | .copied source destination size =>
    "Copied " ++ o.filePath source ++ " -> " ++ o.filePath destination ++ " ("
      ++ Decimal.text size ++ " bytes)"
  | .deleted object => "Deleted " ++ o.filePath object
  | .stored table stored =>
    "Put item '" ++ stored.key ++ "' into table file '" ++ table ++ "' (replaced: "
      ++ (if stored.replaced then "true" else "false") ++ ")"

/-- The engine of a run. -/
def Options.engine (folder : Place) (o : Options) : Engine Tree :=
  let service : Service Tree := ⟨(o.store folder).backend, o.policy⟩
  ⟨service.adapter o.deedLine, o.timeoutSecs.map (· * 1000)⟩

/-- Reads the workflow. -/
def loadWorkflow (folder : Place) (path : String) : Session Workflow := do
  let told := Definition.load (← get).tree path (.ofText folder path)
  log told.1
  match told.2 with
  | .ok w => return w
  | .error e =>
    log [.error ("Failed to load workflow: " ++ e.message)]
    fail ("Could not load workflow from '" ++ path ++ "': " ++ e.message)

/-- Reads the text of a context. -/
def parseContext (text : String) : Session Json :=
  match Json.read text with
  | .ok context => return context
  | .error e => fail ("Initial context is not valid JSON: " ++ e.message)

/-- The initial context; an empty object if none is given. -/
def initialContext (folder : Place) (o : Options) : Session Json := do
  match o.input, o.context with
  | some path, _ =>
    match (← get).tree.readText (.ofText folder path) with
    | .ok text => parseContext text
    | .error fault => fail ("Could not read input file '" ++ path ++ "': " ++ fault.message)
  | none, some text => parseContext text
  | none, none => return .object []

/-- Checks the workflow for the operations that there are and prints its plan. -/
def dryRun (w : Workflow) (budgetMs : Option Nat) : Session Unit := do
  log (.info "Mode: DRY RUN (steps will not execute)" :: w.remarks)
  match w.quickProblems Operation.names with
  | [] => print (plan w budgetMs)
  | problems =>
    log (problems.map .error)
    fail ("Workflow '" ++ w.name ++ "' has " ++ Decimal.text problems.length ++ " problem(s)")

/-! ### Reports -/

/-- When a run began and ended, and how long it and its steps took. -/
structure Times where
  startedAt : Json
  finishedAt : Json
  elapsedMs : Nat
  durations : List (String × Nat)

/-- How long runs take. -/
abbrev Clock := Report → Times

/-- The lines on how a run ended. -/
def summary (r : Report) (elapsedMs : Nat) : List String :=
  "" ::
    (match r.outcome with
     | .completed _ => ["✓ Workflow '" ++ r.workflow ++ "' completed"]
     | .failed failure _ =>
       ["✗ Workflow '" ++ r.workflow ++ "' failed at step " ++ Decimal.text failure.index ++ " ("
          ++ failure.name ++ ")",
        "  " ++ failure.error.kind ++ " " ++ failure.error.message]
     | .timedOut index name budgetMs _ =>
       ["⏱ Workflow '" ++ r.workflow ++ "' timed out after " ++ Decimal.text (budgetMs / 1000)
          ++ "s during step " ++ Decimal.text index ++ " (" ++ name ++ ")"])
    ++ ["  Elapsed: " ++ Decimal.text elapsedMs ++ " ms"]

/-- The report of a run as a document, with its members in their order. -/
def reportDocument (r : Report) (t : Times) : Json :=
  .object [("workflow", .string r.workflow), ("started_at", t.startedAt),
    ("finished_at", t.finishedAt), ("elapsed_ms", .ofNat t.elapsedMs),
    ("durations", .object (t.durations.map fun (id, ms) => (id, .ofNat ms))),
    ("outcome", .object r.outcome.members)]

/-- Writes a file, with the folders in which it is. -/
def writeFile (folder : Place) (path text : String) : Session (Except FileFault Unit) := do
  let route := Route.ofText folder path
  let (made, tree) := (← get).tree.makeParents route
  modify fun c => { c with tree }
  match made.bind fun () => tree.write route text.toUTF8 with
  | .ok tree =>
    modify fun c => { c with tree }
    return .ok ()
  | .error fault => return .error fault

/-- Writes the report of a run, or prints its last context. -/
def deliver (folder : Place) (o : Options) (r : Report) (t : Times) : Session Unit := do
  match o.outcome with
  | some path =>
    match ← writeFile folder path (reportDocument r t).pretty with
    | .ok () => log [.info ("Outcome written to: " ++ path)]
    | .error fault =>
      fail ("Could not write outcome to '" ++ path ++ "': " ++ fault.message)
  | none => print ["", r.outcome.context.pretty]

/-! ### Whole runs -/

/-- Runs a workflow and reports on it; whether all steps were done. -/
def execute (clock : Clock) (folder : Place) (o : Options) (w : Workflow) : Session Bool := do
  let context ← initialContext folder o
  match (o.engine folder).execute w context (← get).tree with
  | none => fail "The run does not end"
  | some (result, m) =>
    modify fun c => { c with tree := m.world.state }
    log m.world.log
    match result with
    | .error p => throw (.panic p)
    | .ok r =>
      let t := clock r
      print (summary r t.elapsedMs)
      if o.verbose then print (r.timeline.chart t.elapsedMs)
      deliver folder o r t
      return r.outcome.isCompleted

/-- Does what the options say; whether it went well. -/
def perform (clock : Clock) (folder : Place) (o : Options) : Session Bool := do
  match o.workflow with
  | none =>
    print usage
    fail "No workflow file given"
  | some path =>
    print banner
    let w ← loadWorkflow folder path
    log [.info ("Object store: " ++ o.objectsPath)]
    if !o.policy.unrestricted then
      log [.info ("Access restricted to " ++ Decimal.text o.grants.length ++ " grant(s)")]
    if o.dryRun then
      dryRun w ((o.engine folder).budgetFor w)
      return true
    execute clock folder o w

/-- Does what the words after the name of the command ask for; whether it went well. -/
def answer (clock : Clock) (folder : Place) (words : List String) : Session Bool := do
  match parse words with
  | .error e =>
    complain ["Error: " ++ e.message, ""]
    print usage
    fail e.message
  | .ok .help =>
    print usage
    return true
  | .ok .version =>
    print [title ++ " " ++ version]
    return true
  | .ok (.run o) =>
    modify fun c => { c with verbose := o.verbose }
    perform clock folder o

/-- Runs the command with words in a folder of a tree: the exit status and what is left behind. A
panic is told without its place in the program. -/
def run (clock : Clock) (folder : Place) (words : List String) (tree : Tree) : Nat × Console :=
  let (result, console) := (answer clock folder words).run.run ⟨[], [], tree, false⟩
  match result with
  | .ok true => (0, console)
  | .ok false => (1, console)
  | .error (.error message) =>
    (1, { console with err := console.err ++ ["", "Error: " ++ message] })
  | .error (.panic p) =>
    (101, { console with err := console.err ++ ["thread 'main' panicked:", p.message] })

end Conveyor.Command
