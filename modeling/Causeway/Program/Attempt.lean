import Causeway.Program.Basic
import Causeway.Retry.Executor
import Causeway.Retry.Policy

/-!
# Attempts

An attempt is a program that an abort may interrupt while it waits for an answer. `retrying` makes
an action of it by the retry policy.
-/

namespace Causeway

inductive Stop where
  | interrupted
  | failure (f : Failure)

abbrev Attempt := ExceptT Stop Program

namespace Attempt

def ofExcept {α : Type} : Except Failure α → Attempt α
  | .ok a => pure a
  | .error f => throw (.failure f)

/-- Waits until the answer is in. -/
def receive {ε α : Type} (failure : ε → Failure) (r : Reply (Except ε α)) : Attempt α := do
  if 0 < r.latency then
    if !(← Program.request (.pause r.latency)) then throw .interrupted
  ofExcept (r.answer.mapError failure)

def ending {α : Type} (a : Attempt α) : Program (Retry.Ending Failure α) := do
  match ← a.run with
  | .ok v => pure (.value v)
  | .error (.failure f) => pure (.error f)
  | .error .interrupted => pure .interrupted

/-- A single attempt; with no executor around it nothing interrupts it. -/
def once {α : Type} (a : Attempt α) : Action α := ExceptT.mk do
  match ← a.run with
  | .ok v => pure (.ok v)
  | .error (.failure f) => pure (.error f)
  | .error .interrupted => pure (.error .cancelled)

end Attempt

namespace Program

def host : Retry.Host Program where
  aborted := request .isAborted
  pause ms := request (.pause ms)

end Program

/-- Attempts until one succeeds or the policy gives up. -/
def Action.retrying {α : Type} (p : Retry.Policy) (a : Attempt α) : Action α :=
  ExceptT.mk (Retry.attempts Program.host p.delayFor Failure.isRetryable .cancelled
    (fun _ => a.ending) p.retries 0 none)

end Causeway
