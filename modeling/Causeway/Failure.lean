import Causeway.Amount
import Causeway.Conversion.Direction
import Causeway.Deposit.Status
import Causeway.Quota.Decision
import Causeway.Rail.Transfer

/-!
# Failures

A failure is a cause; `Failure.message` is the only place that puts causes into words. Only a
failure of the provider can be worth another attempt.
-/

namespace Causeway

inductive SettingFault where
  | noAttempts
  | shrinkingDelay
  | delaysCrossed
  | feeRate
  | amountsCrossed
  | emptyPage
  | emptySecret
deriving DecidableEq

def SettingFault.message : SettingFault → String
  | .noAttempts => "retry.max_attempts must be at least 1"
  | .shrinkingDelay => "retry.multiplier must be >= 1.0"
  | .delaysCrossed => "retry.max_delay_ms must be >= retry.base_delay_ms"
  | .feeRate => "provider.fee_rate must be in [0, 1)"
  | .amountsCrossed => "provider.max_amount must be >= provider.min_amount"
  | .emptyPage => "provider.list_page_size must be positive"
  | .emptySecret => "webhook_secret must not be empty"

inductive Invalid where
  | setting (fault : SettingFault)
  | amountNotPositive (amount : Decimal)
  | incrementNotPositive (amount : Decimal)
  | fundingNotPositive (amount : Decimal)
  | amountBelow (amount minimum : Decimal)
  | amountAbove (amount maximum : Decimal)
  | noIdempotencyKey
  | noCurrency
  | sameCurrency (currency : String)
  | noReference
  | foreignAccount (railAccount : String) (user : Uuid)
  | nothingToCancel (deposit : Uuid)
  | usageBeforeFunding (deposit : Uuid) (status : Deposit.Status)
  | noSecret
  | stated (text : String)
deriving DecidableEq

def Invalid.message : Invalid → String
  | .setting fault => fault.message
  | .amountNotPositive x => "amount must be positive, got " ++ x.toText
  | .incrementNotPositive x => "usage increment must be positive, got " ++ x.toText
  | .fundingNotPositive x => "funding amount must be positive, got " ++ x.toText
  | .amountBelow x minimum => "amount " ++ x.toText ++ " is below minimum " ++ minimum.toText
  | .amountAbove x maximum => "amount " ++ x.toText ++ " exceeds maximum " ++ maximum.toText
  | .noIdempotencyKey => "idempotency key is required"
  | .noCurrency => "source and destination currencies are required"
  | .sameCurrency c => "cannot convert " ++ c ++ " into itself"
  | .noReference => "reference is required"
  | .foreignAccount account user =>
    "virtual account " ++ account ++ " does not belong to user " ++ user.toText
  | .nothingToCancel id => "deposit " ++ id.toText ++ " has no provider transaction to cancel"
  | .usageBeforeFunding id status =>
    "usage is recorded for funded deposits only, deposit " ++ id.toText ++ " is " ++ status.name
  | .noSecret => "webhook secret must not be empty"
  | .stated text => text

inductive ProviderFault where
  | api (error : Rail.ApiError)
  | directionUnsupported (direction : Conversion.Direction)
  | cancellationUnsupported (provider : String)
  | stated (text : String)
deriving DecidableEq

def ProviderFault.message : ProviderFault → String
  | .api error => error.message
  | .directionUnsupported direction => "direction not supported: " ++ direction.name
  | .cancellationUnsupported provider =>
    "conversion cancellation is not supported by " ++ provider
  | .stated text => text

inductive StorageFault where
  | depositExists (id : Uuid)
  | referenceChanged (id : Uuid)
  | transferTaken (transfer : String) (owner : Uuid)
  | stated (text : String)
deriving DecidableEq

def StorageFault.message : StorageFault → String
  | .depositExists id => "deposit " ++ id.toText ++ " already exists"
  | .referenceChanged id => "reference of deposit " ++ id.toText ++ " is immutable"
  | .transferTaken transfer owner =>
    "provider transaction " ++ transfer ++ " is already linked to deposit " ++ owner.toText
  | .stated text => text

inductive Entity where
  | deposit
  | user
  | virtualAccount
  | providerTransaction
deriving DecidableEq

def Entity.name : Entity → String
  | .deposit => "deposit"
  | .user => "user"
  | .virtualAccount => "virtual account"
  | .providerTransaction => "provider transaction"

inductive Failure where
  | invalid (cause : Invalid)
  | overLimit (denial : Quota.Denial)
  | notFound (entity : Entity) (id : String)
  | duplicateReference (reference : String)
  | invalidTransition (source target : Deposit.Status)
  | stale (deposit : String)
  | provider (retryable : Bool) (cause : ProviderFault)
  | badSignature
  | cancelled
  | storage (cause : StorageFault)
  | malformedJson
deriving DecidableEq

namespace Failure

def message : Failure → String
  | invalid cause => "Validation error: " ++ cause.message
  | overLimit denial =>
    "Limit check failed (" ++ denial.violation.name ++ "): " ++ denial.check.reason
  | notFound entity id => entity.name ++ " not found: " ++ id
  | duplicateReference r => "A deposit with reference " ++ r ++ " already exists"
  | invalidTransition source target =>
    "Invalid deposit transition from " ++ source.name ++ " to " ++ target.name
  | stale d => "Deposit " ++ d ++ " was modified concurrently"
  | provider true cause => "Provider error (retryable): " ++ cause.message
  | provider false cause => "Provider error: " ++ cause.message
  | badSignature => "Webhook signature is invalid"
  | cancelled => "Operation cancelled"
  | storage cause => "Storage error: " ++ cause.message
  | malformedJson => "JSON error"

/-- Only a passing fault of the provider is worth another attempt. -/
def isRetryable : Failure → Bool
  | provider retryable _ => retryable
  | _ => false

def ofApiError (e : Rail.ApiError) : Failure := provider e.isRetryable (.api e)

end Failure

def Amount.ofDecimal (x : Decimal) : Except Failure Amount :=
  match Amount.ofDecimal? x with
  | some a => .ok a
  | none => .error (.invalid (.amountNotPositive x))

end Causeway
