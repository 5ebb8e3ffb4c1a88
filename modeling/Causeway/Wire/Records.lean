import Causeway.Account
import Causeway.Conversion.Basic
import Causeway.Deposit.Basic
import Causeway.Wire.Scalars

/-!
# Records in JSON

Each record is written as an object of all its members in a fixed order, absent values as null, and
read back from such an object or from the array of its members.
-/

namespace Causeway

open Json (Tree)

/-! ## Deposits -/

def Deposit.members : List String :=
  ["id", "user_id", "virtual_account_id", "reference", "amount", "currency", "status",
   "provider_tx_id", "destination_amount", "funding_ref", "failure_reason", "created_at",
   "updated_at", "rail_initiated_at", "rail_completed_at", "broker_funded_at", "usage_recorded_at"]

def Deposit.toJson (d : Deposit) : Json :=
  .object
    [("id", d.id.toJson),
     ("user_id", d.user.toJson),
     ("virtual_account_id", d.account.toJson),
     ("reference", .string d.reference),
     ("amount", d.amount.toJson),
     ("currency", .string d.currency),
     ("status", .string d.status.name),
     ("provider_tx_id", .ofText d.transfer),
     ("destination_amount", .ofDecimal d.destinationAmount),
     ("funding_ref", .ofText d.fundingRef),
     ("failure_reason", .ofText d.failureReason),
     ("created_at", d.createdAt.toJson),
     ("updated_at", d.updatedAt.toJson),
     ("rail_initiated_at", .ofInstant d.railInitiatedAt),
     ("rail_completed_at", .ofInstant d.railCompletedAt),
     ("broker_funded_at", .ofInstant d.brokerFundedAt),
     ("usage_recorded_at", .ofInstant d.usageRecordedAt)]

/-- The last member is younger than the others, and a record may end before it. -/
def Deposit.ofTree? (t : Tree) : Option Deposit := do
  let m ← t.members? members
  pure
    { id := ← (m "id").required Uuid.ofTree?
      user := ← (m "user_id").required Uuid.ofTree?
      account := ← (m "virtual_account_id").required Uuid.ofTree?
      reference := ← (m "reference").required Tree.text?
      amount := ← (m "amount").required Amount.ofTree?
      currency := ← (m "currency").required Tree.text?
      status := ← (m "status").required Status.ofTree?
      transfer := ← (m "provider_tx_id").optional Tree.text?
      destinationAmount := ← (m "destination_amount").optional Decimal.ofTree?
      fundingRef := ← (m "funding_ref").optional Tree.text?
      failureReason := ← (m "failure_reason").optional Tree.text?
      createdAt := ← (m "created_at").required Instant.ofTree?
      updatedAt := ← (m "updated_at").required Instant.ofTree?
      railInitiatedAt := ← (m "rail_initiated_at").optional Instant.ofTree?
      railCompletedAt := ← (m "rail_completed_at").optional Instant.ofTree?
      brokerFundedAt := ← (m "broker_funded_at").optional Instant.ofTree?
      usageRecordedAt := ← (m "usage_recorded_at").orElse none (Tree.nullable? Instant.ofTree?) }

/-! ## Users and accounts -/

def VirtualAccount.toJson (a : VirtualAccount) : Json :=
  .object
    [("id", a.id.toJson),
     ("user_id", a.user.toJson),
     ("rail_account_id", .string a.railAccount),
     ("brokerage_account_id", .string a.brokerageAccount),
     ("created_at", a.createdAt.toJson)]

def VirtualAccount.ofTree? (t : Tree) : Option VirtualAccount := do
  let m ← t.members?
    ["id", "user_id", "rail_account_id", "brokerage_account_id", "created_at"]
  pure
    { id := ← (m "id").required Uuid.ofTree?
      user := ← (m "user_id").required Uuid.ofTree?
      railAccount := ← (m "rail_account_id").required Tree.text?
      brokerageAccount := ← (m "brokerage_account_id").required Tree.text?
      createdAt := ← (m "created_at").required Instant.ofTree? }

def User.toJson (u : User) : Json :=
  .object [("id", u.id.toJson), ("kyc_status", .string u.status)]

def User.ofTree? (t : Tree) : Option User := do
  let m ← t.members? ["id", "kyc_status"]
  pure
    { id := ← (m "id").required Uuid.ofTree?
      status := ← (m "kyc_status").required Tree.text? }

/-! ## Conversions -/

namespace Conversion

def Request.toJson (r : Request) : Json :=
  .object
    [("direction", .string r.direction.name),
     ("source_amount", r.amount.toJson),
     ("source_currency", .string r.currency),
     ("destination_currency", .string r.destinationCurrency),
     ("idempotency_key", .string r.key)]

def Request.ofTree? (t : Tree) : Option Request := do
  let m ← t.members?
    ["direction", "source_amount", "source_currency", "destination_currency", "idempotency_key"]
  pure
    { direction := ← (m "direction").required Direction.ofTree?
      amount := ← (m "source_amount").required Amount.ofTree?
      currency := ← (m "source_currency").required Tree.text?
      destinationCurrency := ← (m "destination_currency").required Tree.text?
      key := ← (m "idempotency_key").required Tree.text? }

def Response.toJson (r : Response) : Json :=
  .object
    [("provider_tx_id", .string r.transfer),
     ("direction", .string r.direction.name),
     ("status", .string r.status.name),
     ("source_amount", r.sourceAmount.toJson),
     ("destination_amount", .ofDecimal r.destinationAmount),
     ("exchange_rate", .ofDecimal r.rate),
     ("fees", .ofDecimal r.fees),
     ("failure_reason", .ofText r.failureReason)]

def Response.ofTree? (t : Tree) : Option Response := do
  let m ← t.members?
    ["provider_tx_id", "direction", "status", "source_amount", "destination_amount",
     "exchange_rate", "fees", "failure_reason"]
  pure
    { transfer := ← (m "provider_tx_id").required Tree.text?
      direction := ← (m "direction").required Direction.ofTree?
      status := ← (m "status").required Status.ofTree?
      sourceAmount := ← (m "source_amount").required Decimal.ofTree?
      destinationAmount := ← (m "destination_amount").optional Decimal.ofTree?
      rate := ← (m "exchange_rate").optional Decimal.ofTree?
      fees := ← (m "fees").optional Decimal.ofTree?
      failureReason := ← (m "failure_reason").optional Tree.text? }

def FeeEstimate.toJson (e : FeeEstimate) : Json :=
  .object
    [("total_fee", e.total.toJson),
     ("network_fee", .ofDecimal e.network),
     ("provider_fee", .ofDecimal e.provider),
     ("estimated_rate", e.rate.toJson),
     ("estimated_output", e.output.toJson)]

def FeeEstimate.ofTree? (t : Tree) : Option FeeEstimate := do
  let m ← t.members?
    ["total_fee", "network_fee", "provider_fee", "estimated_rate", "estimated_output"]
  pure
    { total := ← (m "total_fee").required Decimal.ofTree?
      network := ← (m "network_fee").optional Decimal.ofTree?
      provider := ← (m "provider_fee").optional Decimal.ofTree?
      rate := ← (m "estimated_rate").required Decimal.ofTree?
      output := ← (m "estimated_output").required Decimal.ofTree? }

end Conversion

/-! ## Transfers -/

namespace Rail

def Leg.toJson (l : Leg) : Json :=
  .object
    [("amount", .ofDecimal l.amount), ("currency", .string l.currency), ("fee", .ofDecimal l.fee)]

def Leg.ofTree? (t : Tree) : Option Leg := do
  let m ← t.members? ["amount", "currency", "fee"]
  pure
    { amount := ← (m "amount").optional Decimal.ofTree?
      currency := ← (m "currency").required Tree.text?
      fee := ← (m "fee").optional Decimal.ofTree? }

def Transfer.toJson (t : Transfer) : Json :=
  .object
    [("id", .string t.id),
     ("status", .string t.state.name),
     ("source", t.source.toJson),
     ("destination", t.destination.toJson),
     ("fxRate", .ofDecimal t.rate),
     ("reference", .string t.reference)]

def Transfer.ofTree? (t : Tree) : Option Transfer := do
  let m ← t.members? ["id", "status", "source", "destination", "fxRate", "reference"]
  pure
    { id := ← (m "id").required Tree.text?
      state := ← (m "status").required State.ofTree?
      source := ← (m "source").required Leg.ofTree?
      destination := ← (m "destination").required Leg.ofTree?
      rate := ← (m "fxRate").optional Decimal.ofTree?
      reference := ← (m "reference").required Tree.text? }

def Order.toJson (o : Order) : Json :=
  .object
    [("sourceId", .string o.sourceId),
     ("destinationId", .string o.destinationId),
     ("amount", o.amount.toJson),
     ("currency", .string o.currency),
     ("destinationCurrency", .string o.destinationCurrency),
     ("reference", .string o.reference)]

def Order.ofTree? (t : Tree) : Option Order := do
  let m ← t.members?
    ["sourceId", "destinationId", "amount", "currency", "destinationCurrency", "reference"]
  pure
    { sourceId := ← (m "sourceId").required Tree.text?
      destinationId := ← (m "destinationId").required Tree.text?
      amount := ← (m "amount").required Decimal.ofTree?
      currency := ← (m "currency").required Tree.text?
      destinationCurrency := ← (m "destinationCurrency").required Tree.text?
      reference := ← (m "reference").required Tree.text? }

end Rail

end Causeway
