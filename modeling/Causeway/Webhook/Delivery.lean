import Causeway.Crossing.Basic
import Causeway.Webhook.Event
import Causeway.Webhook.Signature

/-!
# Deliveries

A delivery is verified before anything in it is read. A transfer event leads to a callback for its
transfer, and the first deposit event under a reference starts a conversion.
-/

namespace Causeway.Webhook

inductive Outcome where
  | processed (outcome : Crossing.CallbackOutcome)
  | started (deposit : Uuid) (status : Deposit.Status)
  | duplicate (reference : String)
  | ignored (type : String)
deriving DecidableEq

def orMalformed {α : Type} : Option α → Action α
  | some a => pure a
  | none => throw .malformedJson

def onTransfer (s : Settings) (data : Json) : Action Outcome := do
  let e ← orMalformed (TransferEvent.ofTree? data.toTree)
  pure (.processed (← Crossing.callback s e.id))

def onDeposit (s : Settings) (data : Json) : Action Outcome := do
  let e ← orMalformed (DepositEvent.ofTree? data.toTree)
  match ← (Crossing.initiateForRailAccount s e.account e.amount e.reference).result with
  | .ok d => pure (.started d.id d.status)
  | .error (.duplicateReference reference) => pure (.duplicate reference)
  | .error e => throw e

def deliver (s : Settings) (body : Bytes) (signature : String) : Action Outcome := do
  Action.ofExcept (verify s.webhookSecret body signature)
  let e ← orMalformed (Envelope.ofBytes? body)
  if "transfer.".toList.isPrefixOf e.type.toList then onTransfer s e.data
  else if e.type = "deposit.received" ∨ e.type = "deposit.confirmed" then onDeposit s e.data
  else pure (.ignored e.type)

end Causeway.Webhook
