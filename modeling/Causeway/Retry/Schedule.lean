import Causeway.Retry.Executor
import Causeway.Retry.Policy
import Causeway.Retry.Timer

/-!
# Retrying on a written schedule

A schedule says of each attempt how long it takes, whether it cancels the token, and how it ends.
`run` plays it on a timer and keeps a record of the attempts made.
-/

namespace Causeway.Retry

structure Attempt (α : Type) where
  ms : Nat
  cancels : Bool
  ending : Except (String × Bool) α

/-- The error of an attempt and whether it may be tried again; `none` is the mark of an abort
before any error. -/
abbrev Schedule.Error := Option (String × Bool)

structure Schedule.Run where
  timer : Timer
  /-- Each attempt made with its starting instant, the latest first. -/
  calls : List (Nat × Nat)
deriving DecidableEq

namespace Schedule

abbrev Play := StateM Run

def host : Host Play where
  aborted := do return (← get).timer.aborted
  pause ms := modifyGet fun r =>
    let (elapsed, timer) := r.timer.pause ms
    (elapsed, { r with timer })

def play {α : Type} (script : Nat → Attempt α) (n : Nat) : Play (Ending Error α) := do
  modify fun r => { r with calls := (n, r.timer.now) :: r.calls }
  let a := script n
  if ← host.pause a.ms then
    if a.cancels then modify fun r => { r with timer := r.timer.cancel }
    match a.ending with
    | .ok v => return .value v
    | .error e => return .error (some e)
  else return .interrupted

/-- The result of a run and the state that it leaves. -/
def run {α : Type} (p : Policy) (script : Nat → Attempt α) (timer : Timer) :
    Except Error α × Run :=
  (attempts host p.delayFor (fun e => e.any (·.2)) none (play script) p.retries 0 none).run
    ⟨timer, []⟩

end Schedule

end Causeway.Retry
