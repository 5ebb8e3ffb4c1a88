import Causeway.Decimal.Basic
import Causeway.Text.Blank

/-!
# Tiers and their caps

A user's tier follows from the status that the identity check reports, and sets a minimum and a cap
per day and per month for funds moving either way.
-/

namespace Causeway.Quota

inductive Tier where
  | unverified
  | basic
  | advanced
deriving DecidableEq

/-- The way funds move: onto the platform or off it. -/
inductive Flow where
  | deposit
  | withdrawal
deriving DecidableEq

inductive Period where
  | daily
  | monthly
deriving DecidableEq

def Tier.name : Tier → String
  | .unverified => "unverified"
  | .basic => "basic"
  | .advanced => "advanced"

def Flow.name : Flow → String
  | .deposit => "deposit"
  | .withdrawal => "withdrawal"

def Period.name : Period → String
  | .daily => "daily"
  | .monthly => "monthly"

/-- Whatever is no explicit approval counts as unverified. -/
def Tier.ofStatus (status : String) : Tier :=
  let s := Text.asciiLower (Text.trim status)
  if s = "approved" ∨ s = "verified" then .basic
  else if s = "advanced_approved" ∨ s = "advanced_verified" then .advanced
  else .unverified

structure Caps where
  minimum : Decimal
  daily : Decimal
  monthly : Decimal
deriving DecidableEq

def Caps.during (c : Caps) : Period → Decimal
  | .daily => c.daily
  | .monthly => c.monthly

def Tier.caps : Tier → Flow → Caps
  | .unverified, .deposit =>
    { minimum := { magnitude := 100, places := 2 }
      daily := { magnitude := 10000, places := 2 }
      monthly := { magnitude := 50000, places := 2 } }
  | .unverified, .withdrawal =>
    { minimum := { magnitude := 1000, places := 2 }
      daily := { magnitude := 5000, places := 2 }
      monthly := { magnitude := 20000, places := 2 } }
  | .basic, .deposit =>
    { minimum := { magnitude := 100, places := 2 }
      daily := { magnitude := 500000, places := 2 }
      monthly := { magnitude := 2500000, places := 2 } }
  | .basic, .withdrawal =>
    { minimum := { magnitude := 1000, places := 2 }
      daily := { magnitude := 250000, places := 2 }
      monthly := { magnitude := 2500000, places := 2 } }
  | .advanced, .deposit =>
    { minimum := { magnitude := 100, places := 2 }
      daily := { magnitude := 5000000, places := 2 }
      monthly := { magnitude := 25000000, places := 2 } }
  | .advanced, .withdrawal =>
    { minimum := { magnitude := 1000, places := 2 }
      daily := { magnitude := 1000000, places := 2 }
      monthly := { magnitude := 15000000, places := 2 } }

end Causeway.Quota
