import Causeway.Decimal.Basic

/-!
# Transfers on the rail

The rail knows transfers between two accounts. An order asks for one under a reference, and the
errors of its interface tell a call that may be tried again from one that may not.
-/

namespace Causeway.Rail

inductive State where
  | pending
  | paymentProcessed
  | completed
  | failed
  | unknown
deriving DecidableEq

namespace State

def name : State → String
  | pending => "pending"
  | paymentProcessed => "payment_processed"
  | completed => "completed"
  | failed => "failed"
  | unknown => "unknown"

/-- A name that is not listed stands for a state this library does not know. -/
def ofName (s : String) : State :=
  if s = "pending" then pending
  else if s = "payment_processed" then paymentProcessed
  else if s = "completed" then completed
  else if s = "failed" then failed
  else unknown

end State

structure Leg where
  amount : Option Decimal
  currency : String
  fee : Option Decimal
deriving DecidableEq

structure Transfer where
  id : String
  state : State
  source : Leg
  destination : Leg
  rate : Option Decimal
  reference : String
deriving DecidableEq

structure Order where
  sourceId : String
  destinationId : String
  amount : Decimal
  currency : String
  destinationCurrency : String
  reference : String
deriving DecidableEq

inductive ApiError where
  | network (message : String)
  | timeout
  | http (status : Nat) (message : String)
deriving DecidableEq

namespace ApiError

def message : ApiError → String
  | network m => "network error: " ++ m
  | timeout => "request timed out"
  | http status m => "HTTP " ++ String.ofList (Nat.toDigits 10 status) ++ ": " ++ m

/-- A lost call may be tried again, and one the server refused for the time being. -/
def isRetryable : ApiError → Bool
  | network _ => true
  | timeout => true
  | http status _ => 500 ≤ status || status = 408 || status = 429

end ApiError

end Causeway.Rail
