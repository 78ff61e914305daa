/-!
# Failed calls

Why a call of an operation fails.
-/

namespace Conveyor

/-- Why a call of an operation fails. -/
inductive CallError where
  | unknownOperation (operation : String)
  | invalidInput (operation reason : String)
  | objectNotFound (container key : String)
  | resourceNotFound (name : String)
  | accessDenied (operation resource : String)
  | failed (message : String)
  deriving DecidableEq, Repr

/-- The wording of an error. -/
def CallError.message : CallError → String
  | .unknownOperation operation => "unknown adapter operation '" ++ operation ++ "'"
  | .invalidInput operation reason => "invalid input for '" ++ operation ++ "': " ++ reason
  | .objectNotFound container key => "object '" ++ container ++ "/" ++ key ++ "' does not exist"
  | .resourceNotFound name => "resource '" ++ name ++ "' does not exist"
  | .accessDenied operation resource =>
    "access denied: " ++ operation ++ " on '" ++ resource ++ "'"
  | .failed message => message

end Conveyor
