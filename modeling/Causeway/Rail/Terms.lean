import Causeway.Conversion.Basic
import Causeway.Rail.Transfer
import Causeway.Settings

/-!
# Conversions as transfers

The rail offers transfers, not conversions: a conversion is a transfer between two accounts of the
treasury in different currencies. The terms say which directions and amounts the provider takes and
what it charges.
-/

namespace Causeway

namespace Rail

open Conversion

def State.conversionStatus : State → Conversion.Status
  | .pending => .pending
  | .paymentProcessed => .processing
  | .completed => .completed
  | .failed => .failed
  | .unknown => .failed

/-- The word for a state in the reason of a failure. -/
def State.label : State → String
  | .pending => "Pending"
  | .paymentProcessed => "PaymentProcessed"
  | .completed => "Completed"
  | .failed => "Failed"
  | .unknown => "Unknown"

/-- The direction is told by the currency that arrives. -/
def Transfer.direction (t : Transfer) (otherwise : Direction) : Direction :=
  if ["USD", "EUR", "GBP"].contains t.destination.currency then .stablecoinToFiat
  else if ["USDC", "USDT", "EURC"].contains t.destination.currency then .fiatToStablecoin
  else otherwise

def Transfer.response (t : Transfer) (direction : Direction) : Response :=
  let status := t.state.conversionStatus
  { transfer := t.id
    direction
    status
    sourceAmount := t.source.amount.getD .zero
    destinationAmount := t.destination.amount
    rate := t.rate.filter (Decimal.zero < ·)
    fees := t.source.fee
    failureReason :=
      if status = .failed then some ("transfer reported as " ++ t.state.label) else none }

end Rail

namespace ProviderSettings

open Conversion

def supports (p : ProviderSettings) : Direction → Bool
  | .stablecoinToFiat => p.supportsOfframp
  | .fiatToStablecoin => p.supportsOnramp

/-- The order for a conversion: money leaves by the sender's account off the chain and by the
recipient's onto it. -/
def order (p : ProviderSettings) (r : Conversion.Request) : Rail.Order :=
  let (sourceId, destinationId) := match r.direction with
    | .stablecoinToFiat => (p.senderId, p.recipientId)
    | .fiatToStablecoin => (p.recipientId, p.senderId)
  { sourceId
    destinationId
    amount := r.amount.value
    currency := r.currency
    destinationCurrency := r.destinationCurrency
    reference := r.key }

def checkDirection (p : ProviderSettings) (d : Direction) : Except Failure Unit :=
  if p.supports d then .ok () else .error (.provider false (.directionUnsupported d))

def validateAmount (p : ProviderSettings) (amount : Decimal) (d : Direction) :
    Except Failure Unit := do
  p.checkDirection d
  if amount < p.minAmount then throw (.invalid (.amountBelow amount p.minAmount))
  match p.maxAmount with
  | some m => if m < amount then throw (.invalid (.amountAbove amount m))
  | none => pure ()

def validate (p : ProviderSettings) (r : Conversion.Request) : Except Failure Unit := do
  r.validate
  p.validateAmount r.amount.value r.direction

def estimateFees (p : ProviderSettings) (amount : Decimal) (d : Direction) :
    Except Overflow (Except Failure FeeEstimate) :=
  if amount ≤ .zero then .ok (.error (.invalid (.amountNotPositive amount)))
  else match p.checkDirection d with
    | .error e => .ok (.error e)
    | .ok () => do
      let fee ← amount.mul p.feeRate
      let output ← amount.sub fee
      pure (.ok ⟨fee, none, some fee, .one, output⟩)

end ProviderSettings

end Causeway
