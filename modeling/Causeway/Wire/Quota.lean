import Causeway.Wire.Scalars

/-!
# Quotas in JSON

Counters are stored and read back; checks, caps and limits are only written.
-/

namespace Causeway.Quota

open Json (Tree)

/-! ## Counters -/

def Counter.toJson (c : Counter) : Json :=
  .object [("used", c.used.toJson), ("reset_at", c.resetAt.toJson)]

def Counter.ofTree? (t : Tree) : Option Counter := do
  let m ← t.members? ["used", "reset_at"]
  pure
    { used := ← (m "used").required Decimal.ofTree?
      resetAt := ← (m "reset_at").required Instant.ofTree? }

def Usage.toJson (u : Usage) : Json :=
  .object
    [("user_id", u.user.toJson),
     ("daily_deposit", u.deposit.daily.toJson),
     ("monthly_deposit", u.deposit.monthly.toJson),
     ("daily_withdrawal", u.withdrawal.daily.toJson),
     ("monthly_withdrawal", u.withdrawal.monthly.toJson),
     ("created_at", u.createdAt.toJson),
     ("updated_at", u.updatedAt.toJson)]

def Usage.ofTree? (t : Tree) : Option Usage := do
  let m ← t.members?
    ["user_id", "daily_deposit", "monthly_deposit", "daily_withdrawal", "monthly_withdrawal",
     "created_at", "updated_at"]
  pure
    { user := ← (m "user_id").required Uuid.ofTree?
      deposit :=
        { daily := ← (m "daily_deposit").required Counter.ofTree?
          monthly := ← (m "monthly_deposit").required Counter.ofTree? }
      withdrawal :=
        { daily := ← (m "daily_withdrawal").required Counter.ofTree?
          monthly := ← (m "monthly_withdrawal").required Counter.ofTree? }
      createdAt := ← (m "created_at").required Instant.ofTree?
      updatedAt := ← (m "updated_at").required Instant.ofTree? }

/-! ## Checks, caps and limits -/

def Check.toJson (c : Check) : Json :=
  .object
    [("allowed", .bool c.allowed),
     ("reason", .string c.reason),
     ("currentUsage", c.used.toJson),
     ("limit", c.limit.toJson),
     ("remainingCapacity", c.remaining.toJson),
     ("resetsAt", .ofInstant c.resetsAt),
     ("limitType", .ofText (c.period.map Period.name))]

def Tier.capsToJson (tier : Tier) : Json :=
  .object
    [("tier", .string tier.name),
     ("min_deposit", (tier.caps .deposit).minimum.toJson),
     ("daily_deposit_limit", (tier.caps .deposit).daily.toJson),
     ("monthly_deposit_limit", (tier.caps .deposit).monthly.toJson),
     ("min_withdrawal", (tier.caps .withdrawal).minimum.toJson),
     ("daily_withdrawal_limit", (tier.caps .withdrawal).daily.toJson),
     ("monthly_withdrawal_limit", (tier.caps .withdrawal).monthly.toJson)]

def PeriodLimit.toJson (l : PeriodLimit) : Json :=
  .object
    [("limit", l.limit.toJson), ("used", l.used.toJson), ("remaining", l.remaining.toJson),
     ("resetsAt", l.resetsAt.toJson)]

def FlowLimits.toJson (l : FlowLimits) : Json :=
  .object
    [("minimum", l.minimum.toJson), ("daily", l.daily.toJson), ("monthly", l.monthly.toJson)]

def UserLimits.toJson (l : UserLimits) : Json :=
  .object
    [("kycTier", .string l.tier.name), ("deposit", l.deposit.toJson),
     ("withdrawal", l.withdrawal.toJson)]

end Causeway.Quota
