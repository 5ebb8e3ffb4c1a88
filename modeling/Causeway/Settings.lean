import Causeway.Failure

/-!
# Settings

Settings have a default for every field. `Settings.validate` names the first fault that no run can
work with.
-/

namespace Causeway

structure RetrySettings where
  maxAttempts : Nat := 3
  baseDelayMs : Nat := 500
  maxDelayMs : Nat := 5000
  multiplier : Float := 2.0

def ProviderSettings.usualFeeRate : Decimal := { magnitude := 5, places := 3 }

structure ProviderSettings where
  name : String := "sandbox-rail"
  kind : String := "rail"
  supportsOfframp : Bool := true
  supportsOnramp : Bool := true
  minAmount : Decimal := .one
  maxAmount : Option Decimal := none
  feeRate : Decimal := ProviderSettings.usualFeeRate
  listPageSize : Nat := 100
  senderId : String := "treasury-sender"
  recipientId : String := "treasury-recipient"

/-- What is converted into what, and the age in seconds at which a deposit without a transfer is
taken up again. -/
structure CrossingSettings where
  direction : Conversion.Direction := .stablecoinToFiat
  currency : String := "USDC"
  destinationCurrency : String := "USD"
  staleAfterSecs : Nat := 900

structure Settings where
  retry : RetrySettings := {}
  provider : ProviderSettings := {}
  crossing : CrossingSettings := {}
  webhookSecret : String := "sandbox-webhook-secret"

namespace Settings

def standard : Settings := {}

instance : Inhabited Settings := ⟨standard⟩

def fault? (s : Settings) : Option SettingFault :=
  if s.retry.maxAttempts = 0 then some .noAttempts
  else if s.retry.multiplier < 1.0 then some .shrinkingDelay
  else if s.retry.maxDelayMs < s.retry.baseDelayMs then some .delaysCrossed
  else if s.provider.feeRate < .zero ∨ .one ≤ s.provider.feeRate then some .feeRate
  else if s.provider.maxAmount.any (· < s.provider.minAmount) then some .amountsCrossed
  else if s.provider.listPageSize = 0 then some .emptyPage
  else if s.webhookSecret = "" then some .emptySecret
  else none

def validate (s : Settings) : Except Failure Unit :=
  match s.fault? with
  | some fault => .error (.invalid (.setting fault))
  | none => .ok ()

end Settings

end Causeway
