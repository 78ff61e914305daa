/-!
# Errors and panics

A call that fails returns an error, which its caller looks at, or it panics: then nothing is
returned, and the task that has made the call ends with what it was about.
-/

namespace Conveyor

/-- What is known of a panic: its message. -/
structure Panic where
  message : String
  deriving DecidableEq, Repr

/-- How a call fails that may panic. -/
inductive Fault (ε : Type) where
  | error (e : ε)
  | panic (p : Panic)
  deriving DecidableEq, Repr

/-- Changes the error; a panic stays as it is. -/
def Fault.map (f : ε → ε') : Fault ε → Fault ε'
  | .error e => .error (f e)
  | .panic p => .panic p

end Conveyor
