import Causeway.Json.Reader
import Causeway.Settings
import Causeway.Wire.Scalars

/-!
# Settings in JSON

A settings file is one JSON record; what it leaves out keeps its default.
-/

namespace Causeway

open Json (Tree)

def RetrySettings.ofTree? (t : Tree) : Option RetrySettings := do
  let m ← t.members? ["max_attempts", "base_delay_ms", "max_delay_ms", "multiplier"]
  let s : RetrySettings := {}
  pure
    { maxAttempts := ← (m "max_attempts").orElse s.maxAttempts (Tree.natBelow? (twoTo 32))
      baseDelayMs := ← (m "base_delay_ms").orElse s.baseDelayMs (Tree.natBelow? (twoTo 64))
      maxDelayMs := ← (m "max_delay_ms").orElse s.maxDelayMs (Tree.natBelow? (twoTo 64))
      multiplier := ← (m "multiplier").orElse s.multiplier Tree.real? }

def ProviderSettings.ofTree? (t : Tree) : Option ProviderSettings := do
  let m ← t.members?
    ["name", "provider_type", "supports_offramp", "supports_onramp", "min_amount", "max_amount",
     "fee_rate", "list_page_size", "sender_id", "recipient_id"]
  let s : ProviderSettings := {}
  pure
    { name := ← (m "name").orElse s.name Tree.text?
      kind := ← (m "provider_type").orElse s.kind Tree.text?
      supportsOfframp := ← (m "supports_offramp").orElse s.supportsOfframp Tree.bool?
      supportsOnramp := ← (m "supports_onramp").orElse s.supportsOnramp Tree.bool?
      minAmount := ← (m "min_amount").orElse s.minAmount Decimal.ofTree?
      maxAmount := ← (m "max_amount").orElse s.maxAmount (Tree.nullable? Decimal.ofTree?)
      feeRate := ← (m "fee_rate").orElse s.feeRate Decimal.ofTree?
      listPageSize := ← (m "list_page_size").orElse s.listPageSize (Tree.natBelow? (twoTo 64))
      senderId := ← (m "sender_id").orElse s.senderId Tree.text?
      recipientId := ← (m "recipient_id").orElse s.recipientId Tree.text? }

def CrossingSettings.ofTree? (t : Tree) : Option CrossingSettings := do
  let m ← t.members?
    ["direction", "source_currency", "destination_currency", "stale_after_secs"]
  let s : CrossingSettings := {}
  pure
    { direction := ← (m "direction").orElse s.direction Conversion.Direction.ofTree?
      currency := ← (m "source_currency").orElse s.currency Tree.text?
      destinationCurrency := ←
        (m "destination_currency").orElse s.destinationCurrency Tree.text?
      staleAfterSecs := ←
        (m "stale_after_secs").orElse s.staleAfterSecs (Tree.natBelow? (twoTo 64)) }

def Settings.ofTree? (t : Tree) : Option Settings := do
  let m ← t.members? ["retry", "provider", "saga", "webhook_secret"]
  let s : Settings := {}
  pure
    { retry := ← (m "retry").orElse s.retry RetrySettings.ofTree?
      provider := ← (m "provider").orElse s.provider ProviderSettings.ofTree?
      crossing := ← (m "saga").orElse s.crossing CrossingSettings.ofTree?
      webhookSecret := ← (m "webhook_secret").orElse s.webhookSecret Tree.text? }

/-! ## Files -/

inductive Settings.FileFault where
  | missing
  | notText
  | malformed
deriving DecidableEq

/-- Reads the bytes of a settings file, if there is one. -/
def Settings.ofFile : Option Bytes → Except FileFault Settings
  | none => .error .missing
  | some bs =>
    if (Text.ofBytes? bs).isNone then .error .notText
    else match (Json.Tree.ofBytes? bs).bind Settings.ofTree? with
      | some s => .ok s
      | none => .error .malformed

end Causeway
