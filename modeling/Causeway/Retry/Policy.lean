import Causeway.Binary64.Shortest
import Causeway.Settings

/-!
# The back-off schedule

The wait after an attempt grows by a factor from attempt to attempt up to a longest wait. It is
computed in doubles and cut to whole milliseconds.
-/

namespace Causeway.Retry

structure Policy where
  maxAttempts : Nat
  baseMs : Nat
  maxMs : Nat
  multiplier : Float

namespace Policy

/-- Brings the parts of a policy into range: one attempt at least, a longest wait not below the
first, and a finite factor not below one. -/
def clamp (maxAttempts baseMs maxMs : Nat) (multiplier : Float) : Policy :=
  { maxAttempts := max maxAttempts 1
    baseMs
    maxMs := max maxMs baseMs
    multiplier := if !multiplier.isFinite || multiplier < 1.0 then 1.0 else multiplier }

def ofSettings (s : RetrySettings) : Policy :=
  clamp s.maxAttempts s.baseDelayMs s.maxDelayMs s.multiplier

/-- How many attempts may follow the first, which is made under every policy. -/
def retries (p : Policy) : Nat := p.maxAttempts - 1

/-- The product `r * x ^ n`, by squaring. -/
def powerFrom (r x : Float) (n : Nat) : Float :=
  let r := if n % 2 = 1 then r * x else r
  if _h : n / 2 = 0 then r else powerFrom r (x * x) (n / 2)
termination_by n
decreasing_by omega

def power (x : Float) (n : Nat) : Float := powerFrom 1.0 x n

/-- The whole part, no more than 64 bits can hold. -/
def wholeMs (x : Float) : Nat := x.toUInt64.toNat

/-- The wait in milliseconds after the failure of an attempt, counted from zero. -/
def delayFor (p : Policy) (attempt : Nat) : Nat :=
  let wait := Binary64.ofWhole p.baseMs * power p.multiplier (min attempt (twoTo 31 - 1))
  let longest := Binary64.ofWhole p.maxMs
  wholeMs (if wait < longest then wait else longest)

end Policy

end Causeway.Retry
