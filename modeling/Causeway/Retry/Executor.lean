/-!
# Retrying

`attempts` runs an operation until it succeeds, fails for good, has used up its attempts, or is
aborted. Whether the attempts are used up is asked after one has failed, so that there is always a
first. Between two attempts it waits. An abort is noticed before an attempt and in every wait, also
one inside an attempt, and surfaces the last error there was.
-/

namespace Causeway.Retry

inductive Ending (ε α : Type) where
  | value (a : α)
  | error (e : ε)
  | interrupted
deriving DecidableEq

/-- What the surroundings offer: whether an abort is due, and a wait in milliseconds that says
whether it ran to its end. -/
structure Host (m : Type → Type) where
  aborted : m Bool
  pause : Nat → m Bool

variable {m : Type → Type} [Monad m] {ε α : Type}

/-- Makes attempt `n`, and goes on by `next` after a failure that may be tried again. -/
def attemptOnce (host : Host m) (retryable : ε → Bool) (cancelled : ε)
    (attempt : Nat → m (Ending ε α)) (n : Nat) (last : Option ε) (next : ε → m (Except ε α)) :
    m (Except ε α) := do
  if ← host.aborted then return .error (last.getD cancelled)
  match ← attempt n with
  | .interrupted => return .error (last.getD cancelled)
  | .value a => return .ok a
  | .error e => if !retryable e then return .error e else next e

/-- Makes attempt `n`, and `more` after it at most. -/
def attempts (host : Host m) (delay : Nat → Nat) (retryable : ε → Bool) (cancelled : ε)
    (attempt : Nat → m (Ending ε α)) : (more n : Nat) → (last : Option ε) → m (Except ε α)
  | 0, n, last => attemptOnce host retryable cancelled attempt n last fun e => pure (.error e)
  | more + 1, n, last => attemptOnce host retryable cancelled attempt n last fun e => do
    if ← host.pause (delay n) then
      attempts host delay retryable cancelled attempt more (n + 1) (some e)
    else return .error e

/-- How many attempts may follow matters only to what is done after a failure. -/
theorem exists_attempts_eq (host : Host m) (delay : Nat → Nat) (retryable : ε → Bool)
    (cancelled : ε) (attempt : Nat → m (Ending ε α)) (more n : Nat) (last : Option ε) :
    ∃ next, attempts host delay retryable cancelled attempt more n last =
      attemptOnce host retryable cancelled attempt n last next := by
  cases more <;> exact ⟨_, rfl⟩

end Causeway.Retry
