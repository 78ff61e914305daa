import Conveyor.Command.Options
import Conveyor.Command.Plan
import Conveyor.Command.Session
import Conveyor.Content.Basic
import Conveyor.Content.Reading
import Conveyor.Decimal.Binary64
import Conveyor.Decimal.Digits
import Conveyor.Decimal.Layout
import Conveyor.Decimal.Shortest
import Conveyor.Expression.Basic
import Conveyor.Expression.Parser
import Conveyor.Fault
import Conveyor.Json.Basic
import Conveyor.Json.Reader
import Conveyor.Json.Writer
import Conveyor.Keyed
import Conveyor.Main
import Conveyor.Path.Access
import Conveyor.Path.Basic
import Conveyor.Path.Parser
import Conveyor.Payload
import Conveyor.Proofs.Command.Grants
import Conveyor.Proofs.Content.Documents
import Conveyor.Proofs.Content.Meaning
import Conveyor.Proofs.Content.Payloads
import Conveyor.Proofs.Content.Records
import Conveyor.Proofs.Content.References
import Conveyor.Proofs.Expression.Call
import Conveyor.Proofs.Expression.Failing
import Conveyor.Proofs.Expression.Reading
import Conveyor.Proofs.Expression.Template
import Conveyor.Proofs.FileIngest.Context
import Conveyor.Proofs.FileIngest.Correctness
import Conveyor.Proofs.FileIngest.Safety
import Conveyor.Proofs.Json.Members
import Conveyor.Proofs.Keyed
import Conveyor.Proofs.Path.Apart
import Conveyor.Proofs.Path.Lens
import Conveyor.Proofs.Path.Obstacles
import Conveyor.Proofs.Path.Parts
import Conveyor.Proofs.Path.ReadBack
import Conveyor.Proofs.Path.Reading
import Conveyor.Proofs.Result
import Conveyor.Proofs.Run.Admission
import Conveyor.Proofs.Run.Aftermath
import Conveyor.Proofs.Run.Alternation
import Conveyor.Proofs.Run.Answers
import Conveyor.Proofs.Run.Assertions
import Conveyor.Proofs.Run.Balanced
import Conveyor.Proofs.Run.Budgets
import Conveyor.Proofs.Run.Cancellation
import Conveyor.Proofs.Run.Commits
import Conveyor.Proofs.Run.Deadlines
import Conveyor.Proofs.Run.Dues
import Conveyor.Proofs.Run.Endings
import Conveyor.Proofs.Run.Evaluation
import Conveyor.Proofs.Run.EventLog
import Conveyor.Proofs.Run.FanOut
import Conveyor.Proofs.Run.Frames
import Conveyor.Proofs.Run.Ids
import Conveyor.Proofs.Run.Interruption
import Conveyor.Proofs.Run.Lawful
import Conveyor.Proofs.Run.Moments
import Conveyor.Proofs.Run.Moves
import Conveyor.Proofs.Run.OpenSteps
import Conveyor.Proofs.Run.Orphans
import Conveyor.Proofs.Run.Pauses
import Conveyor.Proofs.Run.Pipelines
import Conveyor.Proofs.Run.Prompt
import Conveyor.Proofs.Run.Proper
import Conveyor.Proofs.Run.Reports
import Conveyor.Proofs.Run.Retries
import Conveyor.Proofs.Run.Scopes
import Conveyor.Proofs.Run.Sequence
import Conveyor.Proofs.Run.Sharing
import Conveyor.Proofs.Run.Sound
import Conveyor.Proofs.Run.Spans
import Conveyor.Proofs.Run.StepRules
import Conveyor.Proofs.Run.Stepwise
import Conveyor.Proofs.Run.Tasks
import Conveyor.Proofs.Run.Termination
import Conveyor.Proofs.Run.Traces
import Conveyor.Proofs.Run.Transform
import Conveyor.Proofs.Run.Turn
import Conveyor.Proofs.Store.Agreement
import Conveyor.Proofs.Store.Calls
import Conveyor.Proofs.Store.Cells
import Conveyor.Proofs.Store.Confinement
import Conveyor.Proofs.Store.Copies
import Conveyor.Proofs.Store.Dispatch
import Conveyor.Proofs.Store.Failures
import Conveyor.Proofs.Store.Folders
import Conveyor.Proofs.Store.Independence
import Conveyor.Proofs.Store.Interchange
import Conveyor.Proofs.Store.Memory
import Conveyor.Proofs.Store.Mirrors
import Conveyor.Proofs.Store.Nesting
import Conveyor.Proofs.Store.Noninterference
import Conveyor.Proofs.Store.Operations
import Conveyor.Proofs.Store.Places
import Conveyor.Proofs.Store.Reach
import Conveyor.Proofs.Store.Routes
import Conveyor.Proofs.Store.TableFiles
import Conveyor.Proofs.Store.Trees
import Conveyor.Proofs.Text.Basic
import Conveyor.Proofs.Workflow.Accepted
import Conveyor.Proofs.Workflow.Operations
import Conveyor.Proofs.Workflow.Parsed
import Conveyor.Proofs.Workflow.Parts
import Conveyor.Proofs.Workflow.Reading
import Conveyor.Proofs.Workflow.Reload
import Conveyor.Proofs.Workflow.WellFormed
import Conveyor.Proofs.Yaml.Ensures
import Conveyor.Run.Activity
import Conveyor.Run.Adapter
import Conveyor.Run.Engine
import Conveyor.Run.Error
import Conveyor.Run.Log
import Conveyor.Run.Machine
import Conveyor.Run.Outcome
import Conveyor.Run.Script
import Conveyor.Run.Steps
import Conveyor.Run.Timeline
import Conveyor.Run.World
import Conveyor.Store.Backend
import Conveyor.Store.Error
import Conveyor.Store.Files
import Conveyor.Store.Item
import Conveyor.Store.Memory
import Conveyor.Store.Object
import Conveyor.Store.Policy
import Conveyor.Store.Service
import Conveyor.Store.Tree
import Conveyor.Template
import Conveyor.Text.Blank
import Conveyor.Text.Cut
import Conveyor.Text.Quoted
import Conveyor.Workflow.Basic
import Conveyor.Workflow.Check
import Conveyor.Workflow.Definition
import Conveyor.Workflow.FileIngest
import Conveyor.Workflow.Nodes
import Conveyor.Workflow.Reading
import Conveyor.Workflow.Remarks
import Conveyor.Workflow.ResultPath
import Conveyor.Workflow.Retry
import Conveyor.Workflow.Step
import Conveyor.Workflow.Writing
import Conveyor.Yaml.Error
import Conveyor.Yaml.Node
import Conveyor.Yaml.Node.Parser
import Conveyor.Yaml.Reading
import Conveyor.Yaml.Scalar
import Conveyor.Yaml.Token
import Conveyor.Yaml.Token.Cursor
import Conveyor.Yaml.Token.Lexer
import Conveyor.Yaml.Token.Name
import Conveyor.Yaml.Token.Scalar
import Conveyor.Yaml.Writer
