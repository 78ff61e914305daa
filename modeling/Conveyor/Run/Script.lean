import Conveyor.Run.Adapter

/-!
# Scripts

A script stands before a service and rehearses what can happen to calls: it delays them, refuses the
first ones, and answers a few operations of its own.
-/

namespace Conveyor

/-- What a script does to the calls of an operation. -/
structure Rule where
  /-- The number of milliseconds that each call takes. -/
  delay : Nat
  /-- The number of calls that are refused. -/
  refusals : Nat
  /-- The answer of `test:const`. -/
  output : Json
  deriving DecidableEq, Repr

/-- Calls are neither delayed nor refused. -/
def Rule.plain : Rule := ⟨0, 0, .null⟩

/-- The rules for some operations. -/
abbrev Script := List (String × Rule)

namespace Script

/-- The rule for an operation. -/
def rule (script : Script) (operation : String) : Rule :=
  (script.lookup operation).getD .plain

/-- The operation that answers with its input. -/
def echoName : String := "test:echo"

/-- The operation that answers as its rule says. -/
def constName : String := "test:const"

/-- The operation that answers as its input says. -/
def workName : String := "test:work"

/-- A member that holds a natural number. -/
def natural (j : Option Json) : Nat :=
  match j with
  | some (.number (.integer i _)) => i.toNat
  | _ => 0

/-- The number of milliseconds that a call takes. -/
def delay (script : Script) (operation : String) (input : Json) : Nat :=
  (script.rule operation).delay
    + (if operation = workName then natural (input.member? "delay") else 0)

/-- The answer of `test:work`. -/
def work (input : Json) : Except CallError Json :=
  match input.member? "fail" with
  | some (.string message) => .error (.failed message)
  | _ => .ok (.ofFields [("done", (input.member? "id").getD .null)])

/-- The refusal of a call. -/
def refusal (operation : String) (number : Nat) : CallError :=
  .failed (operation ++ " call " ++ Decimal.text number ++ " refused")

/-- A service behind a script. -/
def adapter (script : Script) (s : Service σ) (describe : Deed → String) : Adapter σ where
  delay := script.delay
  answer number operation input state :=
    if number ≤ (script.rule operation).refusals then
      ((.error (refusal operation number), []), state)
    else if operation = echoName then ((.ok input, []), state)
    else if operation = constName then ((.ok (script.rule operation).output, []), state)
    else if operation = workName then ((work input, []), state)
    else (s.adapter describe).answer number operation input state

end Script

end Conveyor
