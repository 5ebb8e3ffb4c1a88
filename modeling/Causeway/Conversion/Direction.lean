/-!
# Directions and states of a conversion
-/

namespace Causeway.Conversion

inductive Direction where
  | stablecoinToFiat
  | fiatToStablecoin
deriving DecidableEq

def Direction.name : Direction → String
  | .stablecoinToFiat => "stablecoin_to_fiat"
  | .fiatToStablecoin => "fiat_to_stablecoin"

inductive Status where
  | pending
  | processing
  | completed
  | failed
deriving DecidableEq

def Status.name : Status → String
  | .pending => "pending"
  | .processing => "processing"
  | .completed => "completed"
  | .failed => "failed"

end Causeway.Conversion
