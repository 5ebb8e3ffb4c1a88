import Causeway.Json.Reader
import Causeway.Json.Writer
import Causeway.Wire.Scalars

/-!
# Webhook events

An envelope names the type of an event and carries its data as a JSON value. Of a transfer event
only the id is needed; a deposit event tells what arrived on which account.
-/

namespace Causeway.Webhook

open Json (Tree)

structure Envelope where
  type : String
  timestamp : Option String
  data : Json

structure TransferEvent where
  id : String
  status : Option String
  sourceAmount : Option Decimal
  destinationAmount : Option Decimal
  rate : Option Decimal
deriving DecidableEq

structure DepositEvent where
  account : String
  amount : Amount
  currency : Option String
  reference : String
deriving DecidableEq

/-- A JSON text may nest 127 deep in all, and the envelope is one level of it. -/
def Envelope.ofTree? (t : Tree) : Option Envelope := do
  let m ← t.members? ["type", "timestamp", "data"]
  pure
    { type := ← (m "type").required Tree.text?
      timestamp := ← (m "timestamp").orElse none (Tree.nullable? Tree.text?)
      data := ← (m "data").required (Tree.value? 126) }

def Envelope.ofBytes? (body : Bytes) : Option Envelope := (Tree.ofBytes? body).bind ofTree?

/-- A missing timestamp is left out. -/
def Envelope.toJson (e : Envelope) : Json :=
  .object <| ("type", .string e.type)
    :: (match e.timestamp with
      | some timestamp => [("timestamp", .string timestamp)]
      | none => [])
    ++ [("data", e.data)]

def TransferEvent.ofTree? (t : Tree) : Option TransferEvent := do
  let m ← t.members? ["id", "status", "sourceAmount", "destAmount", "fxRate"]
  pure
    { id := ← (m "id").required Tree.text?
      status := ← (m "status").orElse none (Tree.nullable? Tree.text?)
      sourceAmount := ← (m "sourceAmount").orElse none (Tree.nullable? Decimal.ofTree?)
      destinationAmount := ← (m "destAmount").orElse none (Tree.nullable? Decimal.ofTree?)
      rate := ← (m "fxRate").orElse none (Tree.nullable? Decimal.ofTree?) }

def TransferEvent.toJson (e : TransferEvent) : Json :=
  .object
    [("id", .string e.id),
     ("status", .ofText e.status),
     ("sourceAmount", .ofDecimal e.sourceAmount),
     ("destAmount", .ofDecimal e.destinationAmount),
     ("fxRate", .ofDecimal e.rate)]

def DepositEvent.ofTree? (t : Tree) : Option DepositEvent := do
  let m ← t.members? ["virtualAccountId", "amount", "currency", "txRef"]
  pure
    { account := ← (m "virtualAccountId").required Tree.text?
      amount := ← (m "amount").required Amount.ofTree?
      currency := ← (m "currency").orElse none (Tree.nullable? Tree.text?)
      reference := ← (m "txRef").required Tree.text? }

/-- A missing currency is left out. -/
def DepositEvent.toJson (e : DepositEvent) : Json :=
  .object <| [("virtualAccountId", .string e.account), ("amount", e.amount.toJson)]
    ++ (match e.currency with
      | some currency => [("currency", .string currency)]
      | none => [])
    ++ [("txRef", .string e.reference)]

end Causeway.Webhook
