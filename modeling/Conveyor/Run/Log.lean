/-!
# Log lines

What a program tells while it works, with a level that says how much it matters.
-/

namespace Conveyor

/-- How much a log line matters. -/
inductive Level where
  | error
  | warn
  | info
  | debug
  deriving DecidableEq, Repr

/-- A line of the log. -/
structure LogLine where
  level : Level
  text : String
  deriving DecidableEq, Repr

/-- A line on an error. -/
def LogLine.error (text : String) : LogLine := ⟨.error, text⟩

/-- A line on something unusual. -/
def LogLine.warn (text : String) : LogLine := ⟨.warn, text⟩

/-- A line on progress. -/
def LogLine.info (text : String) : LogLine := ⟨.info, text⟩

/-- A line on details. -/
def LogLine.debug (text : String) : LogLine := ⟨.debug, text⟩

end Conveyor
