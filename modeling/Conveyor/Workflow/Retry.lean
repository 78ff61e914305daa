import Conveyor.Decimal.Binary64

/-!
# Retrying

A retry policy allows a number of attempts in all and sets the pause after each failed one: an
interval that a rate multiplies from pause to pause. Rates below one count as one.
-/

namespace Conveyor

/-- How often a call is made, and how long after a failure. -/
structure RetryPolicy where
  maxAttempts : UInt32
  intervalMs : UInt64
  backoffRate : Binary64
  deriving DecidableEq, Repr

namespace RetryPolicy

/-- Three attempts, one second and then twice as long each time. -/
def standard : RetryPolicy := ⟨3, 1000, ⟨0x4000000000000000⟩⟩

instance : Inhabited RetryPolicy := ⟨standard⟩

/-- The power of the rate in the pause after an attempt, as a signed word of 32 bits. -/
def exponentAfter (attempt : UInt32) : Int :=
  (attempt.toNat - 1 : Nat).toUInt32.toInt32.toInt

/-- The pause in milliseconds after a failed attempt, the first of which has the number one. -/
def delayAfter (policy : RetryPolicy) (attempt : UInt32) : UInt64 :=
  let factor := (policy.backoffRate.larger .one).pow (exponentAfter attempt)
  ((Binary64.ofInt policy.intervalMs.toNat).mul factor).toWord

/-- The number of attempts, at least one. -/
def attempts (policy : RetryPolicy) : Nat :=
  max policy.maxAttempts.toNat 1

end RetryPolicy

end Conveyor
