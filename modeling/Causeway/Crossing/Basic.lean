import Causeway.Crossing.Provider

/-!
# The crossing of a deposit

A deposit is stored first, then converted over the rail, and its settled amount is paid into the
brokerage account. Every stored change names the status it expects to replace, so callbacks, polls
and sweeps may race without moving a deposit back or paying twice.
-/

namespace Causeway.Crossing

open Deposit (Event Status)

/-! ## Requests to the stores -/

def depositById (id : Uuid) : Action (Option Deposit) := .ask (.request (.depositById id))

def update (d : Deposit) (expected : Status) : Action Unit :=
  .ask (.request (.updateDeposit d expected))

/-- False when another writer has moved the deposit first. -/
def persist (d : Deposit) (expected : Status) : Action Bool := do
  match ← (update d expected).result with
  | .ok () => pure true
  | .error (.stale _) => pure false
  | .error e => throw e

def mark (d : Deposit) (event : Event) : Action Deposit := do
  let now ← Program.request .now
  .ofExcept (d.apply event now)

/-! ## Onto the rail -/

def request (s : Settings) (d : Deposit) : Conversion.Request :=
  { direction := s.crossing.direction
    amount := d.amount
    currency := s.crossing.currency
    destinationCurrency := s.crossing.destinationCurrency
    key := d.reference }

def policy (s : Settings) : Retry.Policy := .ofSettings s.retry

/-- Orders the conversion of a stored deposit. After an abort the rail may hold the transfer
already, so the deposit is left for the sweep, which orders under the same key. -/
def startRail (s : Settings) (d : Deposit) : Action Deposit := do
  match ← (Action.retrying (policy s) (Provider.convert s.provider (request s d))).result with
  | .ok response =>
    let d ← mark d (.railInitiated response.transfer)
    update d .created
    pure d
  | .error e =>
    if e = .cancelled || (← Program.request .isAborted) then throw e
    let d ← mark d (.failed e.message)
    let _ ← (update d .created).result
    throw e

def initiate (s : Settings) (user : Uuid) (railAccount : String) (amount : Amount)
    (reference : String) : Action Deposit := do
  if Text.isBlankText reference then throw (.invalid .noReference)
  let account ← Action.ask (Program.request (.accountByRail railAccount))
  let account ← Action.orNotFound .virtualAccount railAccount account
  if account.user ≠ user then throw (.invalid (.foreignAccount railAccount user))
  let now ← Program.request .now
  let id ← Program.request .freshId
  let d := Deposit.start id user account.id reference amount s.crossing.currency now
  Action.ask (Program.request (.createDeposit d))
  startRail s d

def initiateForRailAccount (s : Settings) (railAccount : String) (amount : Amount)
    (reference : String) : Action Deposit := do
  let account ← Action.ask (Program.request (.accountByRail railAccount))
  let account ← Action.orNotFound .virtualAccount railAccount account
  initiate s account.user railAccount amount reference

/-! ## Into the brokerage -/

/-- Counts a funded deposit against its user's quota and marks it. It is counted once, even when
the mark could not be stored at first. -/
def recordUsage (d : Deposit) : Action Deposit := do
  let _ ← Action.ask (Program.request (.applyUsage d.user d.id d.amount.value))
  let d ← mark d .usageRecorded
  update d .brokerFunded
  pure d

def payIn (key account : String) (amount : Decimal) : Attempt String := do
  Attempt.receive id (← Program.request (.fundAccount key account amount))

/-- Pays a claimed deposit in, as it is stored now. -/
def fundClaimed (s : Settings) (id : Uuid) : Action Deposit := do
  let d ← Action.orNotFound .deposit id.toText (← depositById id)
  if d.status ≠ .railCompleted then throw (.stale d.id.toText)
  let account ← Action.ask (Program.request (.accountById d.account))
  let account ← Action.orNotFound .virtualAccount d.account.toText account
  let fundingRef ← Action.retrying (policy s)
    (payIn d.id.toText account.brokerageAccount d.settledAmount)
  let d ← mark d (.brokerFunded fundingRef)
  update d .railCompleted
  match ← (recordUsage d).result with
  | .ok recorded => pure recorded
  | .error _ => pure d

/-- Pays a deposit that has come over the rail into the brokerage account. One program at a time
has the claim on a deposit. -/
def fund (s : Settings) (d : Deposit) : Action Deposit := do
  if d.status ≠ .railCompleted then throw (.invalidTransition d.status .brokerFunded)
  if !(← Program.request (.claim d.id)) then throw (.stale d.id.toText)
  let r ← (fundClaimed s d.id).result
  Program.request (.release d.id)
  .ofExcept r

/-! ## News from the rail -/

inductive CallbackOutcome where
  | unmatched
  | unchanged (status : Status)
  | advanced (source target : Status)
deriving DecidableEq

def currentOutcome (id : Uuid) : Action CallbackOutcome := do
  let d ← Action.orNotFound .deposit id.toText (← depositById id)
  pure (.unchanged d.status)

/-- Brings a deposit to where the provider says its transfer is. A deposit that has left the rail
is not touched: its funding belongs to the sweep. -/
def callback (s : Settings) (transfer : String) : Action CallbackOutcome := do
  match ← Action.ask (Program.request (.depositByTransfer transfer)) with
  | none => pure .unmatched
  | some d =>
    if d.status ≠ .railInitiated then return .unchanged d.status
    let response ← Action.retrying (policy s) (Provider.status s.provider transfer)
    match response.status with
    | .completed =>
      let completed ← mark d (.railCompleted response.destinationAmount)
      if !(← persist completed d.status) then return ← currentOutcome d.id
      match ← (fund s completed).result with
      | .ok funded => pure (.advanced d.status funded.status)
      | .error _ => pure (.advanced d.status .railCompleted)
    | .failed =>
      let failed ← mark d (.failed (response.failureReason.getD "provider reported failure"))
      if !(← persist failed d.status) then return ← currentOutcome d.id
      pure (.advanced d.status .failed)
    | .pending => pure (.unchanged d.status)
    | .processing => pure (.unchanged d.status)

def cancel (s : Settings) (id : Uuid) : Action Deposit := do
  let d ← Action.orNotFound .deposit id.toText (← depositById id)
  if d.transfer.isNone then throw (.invalid (.nothingToCancel id))
  if d.status ≠ .railInitiated then throw (.invalidTransition d.status .failed)
  Action.ofExcept (Provider.cancel s.provider)
  let d ← mark d (.failed "cancelled")
  update d .railInitiated
  pure d

end Causeway.Crossing
