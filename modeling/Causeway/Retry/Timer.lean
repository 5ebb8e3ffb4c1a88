/-!
# The timer

The timer counts milliseconds that pass only in waits. An abort is due once the token is cancelled
or the deadline is reached, and wins over a wait that would end in the same millisecond.
-/

namespace Causeway.Retry

structure Timer where
  now : Nat := 0
  deadline : Option Nat := none
  cancelAt : Option Nat := none
deriving DecidableEq

namespace Timer

def cancelled (t : Timer) : Bool := t.cancelAt.any (· ≤ t.now)

/-- The first instant at which an abort is due. -/
def abortAt : Timer → Option Nat
  | ⟨_, some d, some c⟩ => some (min d c)
  | ⟨_, some d, none⟩ => some d
  | ⟨_, none, c⟩ => c

def aborted (t : Timer) : Bool := t.abortAt.any (· ≤ t.now)

/-- Cancels the token, now unless it is cancelled earlier anyway. -/
def cancel (t : Timer) : Timer :=
  { t with cancelAt := some (match t.cancelAt with | some c => min c t.now | none => t.now) }

def advance (t : Timer) (ms : Nat) : Timer := { t with now := t.now + ms }

/-- When a wait of some milliseconds ends, and whether it runs to its end. -/
def wake (t : Timer) (ms : Nat) : Nat × Bool :=
  match t.abortAt with
  | some a => if a ≤ t.now + ms then (max t.now a, false) else (t.now + ms, true)
  | none => (t.now + ms, true)

def pause (t : Timer) (ms : Nat) : Bool × Timer :=
  let (now, elapsed) := t.wake ms
  (elapsed, { t with now })

end Timer

end Causeway.Retry
