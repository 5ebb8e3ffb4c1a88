import Causeway.Failure

/-!
# Deposits

A deposit records what was paid in, how far it has come, and what each stage left behind. Events
move it on; one that does not fit its stage is refused and leaves it as it was.
-/

namespace Causeway

structure Deposit where
  id : Uuid
  user : Uuid
  account : Uuid
  reference : String
  amount : Amount
  currency : String
  status : Deposit.Status
  transfer : Option String
  destinationAmount : Option Decimal
  fundingRef : Option String
  failureReason : Option String
  createdAt : Instant
  updatedAt : Instant
  railInitiatedAt : Option Instant
  railCompletedAt : Option Instant
  brokerFundedAt : Option Instant
  usageRecordedAt : Option Instant
deriving DecidableEq

namespace Deposit

def start (id user account : Uuid) (reference : String) (amount : Amount) (currency : String)
    (now : Instant) : Deposit :=
  { id, user, account, reference, amount, currency
    status := .created
    transfer := none
    destinationAmount := none
    fundingRef := none
    failureReason := none
    createdAt := now
    updatedAt := now
    railInitiatedAt := none
    railCompletedAt := none
    brokerFundedAt := none
    usageRecordedAt := none }

inductive Event where
  | railInitiated (transfer : String)
  | railCompleted (amount : Option Decimal)
  | brokerFunded (fundingRef : String)
  | failed (reason : String)
  | usageRecorded
deriving DecidableEq

def moveTo (d : Deposit) (status : Status) (now : Instant) : Except Failure Deposit :=
  if d.status.canBecome status then .ok { d with status, updatedAt := now }
  else .error (.invalidTransition d.status status)

def apply (d : Deposit) (event : Event) (now : Instant) : Except Failure Deposit :=
  match event with
  | .railInitiated transfer => do
    let d ← d.moveTo .railInitiated now
    pure { d with transfer := some transfer, railInitiatedAt := some now }
  | .railCompleted amount => do
    let d ← d.moveTo .railCompleted now
    pure { d with destinationAmount := amount, railCompletedAt := some now }
  | .brokerFunded fundingRef => do
    let d ← d.moveTo .brokerFunded now
    pure { d with fundingRef := some fundingRef, brokerFundedAt := some now }
  | .failed reason => do
    let d ← d.moveTo .failed now
    pure { d with failureReason := some reason }
  | .usageRecorded =>
    if d.status = .brokerFunded then
      .ok { d with usageRecordedAt := some now, updatedAt := now }
    else .error (.invalid (.usageBeforeFunding d.id d.status))

/-- What the brokerage is to receive: what the rail paid out, if that is known. -/
def settledAmount (d : Deposit) : Decimal := d.destinationAmount.getD d.amount.value

end Deposit

end Causeway
