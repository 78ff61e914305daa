import Conveyor.Decimal.Digits
import Conveyor.Text.Cut

/-!
# Options of the command

What the words after the name of the command ask for, and what they say that cannot be done.
-/

namespace Conveyor.Command

/-- What a run of the command is to do. -/
structure Options where
  /-- The path of the definition. -/
  workflow : Option String := none
  /-- The path of the file with the initial context. -/
  input : Option String := none
  /-- The initial context itself. -/
  context : Option String := none
  storeFolder : String := "pipeflow-data"
  /-- The declared tables with their partition keys. -/
  tables : List (String × String) := []
  timeoutSecs : Option Nat := none
  grants : List String := []
  /-- The path of the file for the report. -/
  outcome : Option String := none
  dryRun : Bool := false
  verbose : Bool := false
  deriving DecidableEq, Repr

/-- What the command is asked for. -/
inductive Request where
  | help
  | version
  | run (options : Options)
  deriving DecidableEq, Repr

/-- Why the words are not understood. -/
inductive UsageError where
  | missingArgument (option : String)
  | invalidTable (text : String)
  | invalidTimeout (text : String)
  | zeroTimeout
  | unknownOption (word : String)
  | unexpectedWord (word : String)
  | twoContexts
  deriving DecidableEq, Repr

/-- The wording of an error. -/
def UsageError.message : UsageError → String
  | .missingArgument option => option ++ " requires an argument"
  | .invalidTable text => "Invalid table declaration: " ++ text ++ " (expected NAME=KEY)"
  | .invalidTimeout text => "Invalid timeout value: " ++ text
  | .zeroTimeout => "--timeout must be greater than zero"
  | .unknownOption word => "Unknown option: " ++ word
  | .unexpectedWord word => "Unexpected argument: " ++ word
  | .twoContexts => "--input and --context cannot be used together"

/-- Reads the declaration of a table: its name and its key around the first equals sign. -/
def tableOf (text : String) : Except UsageError (String × String) :=
  match Text.cutAt? '=' text.toList with
  | some (name, key) =>
    if name.isEmpty || key.isEmpty then .error (.invalidTable text)
    else .ok (String.ofList name, String.ofList key)
  | none => .error (.invalidTable text)

/-- Reads a budget in seconds. -/
def timeoutOf (text : String) : Except UsageError Nat :=
  match Decimal.readWord? text.toList with
  | some secs => if secs = 0 then .error .zeroTimeout else .ok secs.toNat
  | none => .error (.invalidTimeout text)

/-- An option that is followed by an argument. -/
inductive Setting where
  | input
  | context
  | storeFolder
  | table
  | timeout
  | grant
  | outcome
  deriving DecidableEq, Repr

/-- The option that a word is, if it is followed by an argument. -/
def Setting.ofWord? : String → Option Setting
  | "--input" => some .input
  | "--context" => some .context
  | "--store-dir" => some .storeFolder
  | "--table" => some .table
  | "--timeout" => some .timeout
  | "--grant" => some .grant
  | "--outcome" => some .outcome
  | _ => none

/-- The options with the argument of a setting. Tables and grants add up; of other settings the
last one counts. -/
def Options.set (setting : Setting) (text : String) (o : Options) : Except UsageError Options :=
  match setting with
  | .input => .ok { o with input := some text }
  | .context => .ok { o with context := some text }
  | .storeFolder => .ok { o with storeFolder := text }
  | .table => (tableOf text).map fun table => { o with tables := o.tables ++ [table] }
  | .timeout => (timeoutOf text).map fun secs => { o with timeoutSecs := some secs }
  | .grant => .ok { o with grants := o.grants ++ [text] }
  | .outcome => .ok { o with outcome := some text }

/-- Reads the words that are left, one after the other. -/
def parseFrom (o : Options) : List String → Except UsageError Request
  | [] => if o.input.isSome && o.context.isSome then .error .twoContexts else .ok (.run o)
  | word :: words =>
    match Setting.ofWord? word with
    | some setting =>
      match words with
      | [] => .error (.missingArgument word)
      | text :: words => do parseFrom (← o.set setting text) words
    | none =>
      if word = "--help" || word = "-h" then .ok .help
      else if word = "--version" || word = "-V" then .ok .version
      else if word = "--dry-run" then parseFrom { o with dryRun := true } words
      else if word = "--verbose" || word = "-v" then parseFrom { o with verbose := true } words
      else if word.startsWith "-" then .error (.unknownOption word)
      else if o.workflow.isSome then .error (.unexpectedWord word)
      else parseFrom { o with workflow := some word } words

/-- What the words after the name of the command ask for. -/
def parse (words : List String) : Except UsageError Request :=
  parseFrom {} words

/-! ### Help -/

/-- The name and the version of the program. -/
def title : String := "Pipeflow"

/-- The version of the program. -/
def version : String := "0.1.0"

/-- The lines that introduce a run. -/
def banner : List String :=
  ["", title ++ " v" ++ version, "Declarative Pipeline Interpreter", ""]

/-- The lines on how the command is used. -/
def usage : List String :=
  ["Usage: pipeflow [OPTIONS] <WORKFLOW_FILE>",
    "",
    "Arguments:",
    "  <WORKFLOW_FILE>     Path to workflow YAML or JSON file",
    "",
    "Options:",
    "  --input FILE        Read the initial context from a JSON file",
    "  --context JSON      Initial context as inline JSON (default: \x7b\x7d)",
    "  --store-dir DIR     Root for containers and tables (default: pipeflow-data)",
    "  --table NAME=KEY    Declare a table and its partition key (default: StepfnExample=id)",
    "  --timeout SECS      Run budget, overriding the workflow's timeout_secs",
    "  --grant NAME        Grant access (repeatable); without grants access is unrestricted",
    "                        NAME        read/write on container NAME",
    "                        read:NAME   read-only on container NAME",
    "                        table:NAME  writes to table NAME",
    "  --outcome FILE      Write the run report as JSON",
    "  --dry-run           Validate and print the plan without executing",
    "  --verbose           Enable debug logging and the timeline chart",
    "  --help              Show this help message",
    "  --version           Show version information",
    "",
    "Examples:",
    "  pipeflow pipelines/file_ingest.yaml --input run.json",
    "  pipeflow pipelines/file_ingest.yaml --dry-run",
    "  pipeflow pipelines/file_ingest.yaml --input run.json --grant a --grant b --timeout 30"]

end Conveyor.Command
