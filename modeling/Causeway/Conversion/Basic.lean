import Causeway.Failure

/-!
# Conversions

A conversion turns an amount of one currency into another. Its key names it, so that asking twice
converts once.
-/

namespace Causeway.Conversion

structure Request where
  direction : Direction
  amount : Amount
  currency : String
  destinationCurrency : String
  key : String
deriving DecidableEq

/-- A request needs a key and two different currencies. -/
def Request.validate (r : Request) : Except Failure Unit :=
  if Text.isBlankText r.key then .error (.invalid .noIdempotencyKey)
  else if r.currency = "" ∨ r.destinationCurrency = "" then .error (.invalid .noCurrency)
  else if Text.equalIgnoringAsciiCase r.currency r.destinationCurrency then
    .error (.invalid (.sameCurrency r.currency))
  else .ok ()

structure Response where
  transfer : String
  direction : Direction
  status : Status
  sourceAmount : Decimal
  destinationAmount : Option Decimal
  rate : Option Decimal
  fees : Option Decimal
  failureReason : Option String
deriving DecidableEq

structure FeeEstimate where
  total : Decimal
  network : Option Decimal
  provider : Option Decimal
  rate : Decimal
  output : Decimal
deriving DecidableEq

end Causeway.Conversion
