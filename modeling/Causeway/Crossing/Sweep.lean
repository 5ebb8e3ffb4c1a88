import Causeway.Crossing.Basic

/-!
# The sweep

A sweep takes up every deposit that has stopped on its way: it pays in those that have come over the
rail, orders the conversion of those that are stale without one, asks after those on the rail, and
counts those whose usage is not recorded. It reports what it did and stops at a cancellation.
-/

namespace Causeway.Crossing

structure Report where
  resumed : Nat := 0
  polled : Nat := 0
  funded : Nat := 0
  usageRecorded : Nat := 0
  failed : Nat := 0
  errors : Nat := 0
deriving DecidableEq

/-- Visits deposits in turn until the token is cancelled; says whether all were visited. -/
def visitAll (visit : Report → Deposit → Program Report) :
    Report → List Deposit → Program (Report × Bool)
  | report, [] => pure (report, true)
  | report, d :: ds => do
    if ← Program.request .isCancelled then return (report, false)
    visitAll visit (← visit report d) ds

def visitFunding (s : Settings) (report : Report) (d : Deposit) : Program Report := do
  match ← (fund s d).run with
  | .ok _ => pure { report with funded := report.funded + 1 }
  | .error _ => pure { report with errors := report.errors + 1 }

def isStale (s : Settings) (now : Instant) (d : Deposit) : Bool :=
  s.crossing.staleAfterSecs * 1000000000 ≤ now.nanosSince d.createdAt

def visitCreated (s : Settings) (now : Instant) (report : Report) (d : Deposit) :
    Program Report := do
  if !isStale s now d then return report
  match ← (startRail s d).run with
  | .ok _ => pure { report with resumed := report.resumed + 1 }
  | .error _ => pure { report with errors := report.errors + 1 }

def visitInitiated (s : Settings) (report : Report) (d : Deposit) : Program Report := do
  match d.transfer with
  | none => pure report
  | some transfer =>
    let report := { report with polled := report.polled + 1 }
    match ← (callback s transfer).run with
    | .ok (.advanced _ .brokerFunded) => pure { report with funded := report.funded + 1 }
    | .ok (.advanced _ .failed) => pure { report with failed := report.failed + 1 }
    | .ok _ => pure report
    | .error _ => pure { report with errors := report.errors + 1 }

def visitFunded (report : Report) (d : Deposit) : Program Report := do
  match ← (recordUsage d).run with
  | .ok _ => pure { report with usageRecorded := report.usageRecorded + 1 }
  | .error _ => pure { report with errors := report.errors + 1 }

def depositsIn (status : Deposit.Status) : Action (List Deposit) :=
  .ask (.request (.depositsIn status))

/-- Sweeps once; deposits count as stale by their age at `now`. -/
def sweep (s : Settings) (now : Instant) : Action Report := do
  let (report, whole) ← visitAll (visitFunding s) {} (← depositsIn .railCompleted)
  if !whole then return report
  let (report, whole) ← visitAll (visitCreated s now) report (← depositsIn .created)
  if !whole then return report
  let (report, whole) ← visitAll (visitInitiated s) report (← depositsIn .railInitiated)
  if !whole then return report
  let unrecorded := (← depositsIn .brokerFunded).filter (·.usageRecordedAt.isNone)
  let (report, _) ← visitAll visitFunded report unrecorded
  pure report

end Causeway.Crossing
