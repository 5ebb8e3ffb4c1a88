import Causeway.Decimal.Text
import Causeway.Quota.Usage

/-!
# The limit decision

An amount is held against the tier's minimum, then the daily cap, then the monthly cap; the first
one it breaks is reported. An amount that passes is answered with the tighter of the two periods.
-/

namespace Causeway.Quota

inductive Violation where
  | belowMinimum
  | overDaily
  | overMonthly
deriving DecidableEq

def Violation.name : Violation → String
  | .belowMinimum => "below minimum"
  | .overDaily => "daily limit exceeded"
  | .overMonthly => "monthly limit exceeded"

def Period.violation : Period → Violation
  | .daily => .overDaily
  | .monthly => .overMonthly

structure Check where
  allowed : Bool
  reason : String
  used : Decimal
  limit : Decimal
  remaining : Decimal
  resetsAt : Option Instant
  period : Option Period
deriving DecidableEq

structure Denial where
  violation : Violation
  check : Check
deriving DecidableEq

def checkMinimum (tier : Tier) (flow : Flow) (amount : Decimal) : Except Denial Unit :=
  let minimum := (tier.caps flow).minimum
  if minimum ≤ amount then .ok ()
  else .error
    { violation := .belowMinimum
      check :=
        { allowed := false
          reason := "amount " ++ amount.toText ++ " is below minimum " ++ flow.name ++ " of "
            ++ minimum.toText
          used := .zero
          limit := minimum
          remaining := .zero
          resetsAt := none
          period := none } }

def Meter.report (m : Meter) (caps : Caps) (p : Period) (allowed : Bool) (reason : String) :
    Except Overflow Check := do
  let remaining ← (m.during p).remaining (caps.during p)
  pure
    { allowed
      reason
      used := (m.during p).used
      limit := caps.during p
      remaining
      resetsAt := some (m.during p).resetAt
      period := some p }

def Meter.checkCap (m : Meter) (caps : Caps) (flow : Flow) (amount : Decimal) (p : Period) :
    Except Overflow (Except Denial Unit) := do
  let total ← (m.during p).used.add amount
  if caps.during p < total then
    let check ← m.report caps p false (p.name ++ " " ++ flow.name ++ " limit exceeded")
    pure (.error ⟨p.violation, check⟩)
  else pure (.ok ())

/-- Decides on an amount against counters whose ended periods have been started anew. -/
def evaluate (tier : Tier) (usage : Usage) (flow : Flow) (amount : Decimal) :
    Except Overflow (Except Denial Check) := do
  let caps := tier.caps flow
  let m := usage.meter flow
  match checkMinimum tier flow amount with
  | .error d => pure (.error d)
  | .ok () =>
    match ← m.checkCap caps flow amount .daily with
    | .error d => pure (.error d)
    | .ok () =>
      match ← m.checkCap caps flow amount .monthly with
      | .error d => pure (.error d)
      | .ok () =>
        let daily ← m.report caps .daily true ""
        let monthly ← m.report caps .monthly true ""
        pure (.ok (if monthly.remaining < daily.remaining then monthly else daily))

/-! ## The limits of a user -/

structure PeriodLimit where
  limit : Decimal
  used : Decimal
  remaining : Decimal
  resetsAt : Instant
deriving DecidableEq

structure FlowLimits where
  minimum : Decimal
  daily : PeriodLimit
  monthly : PeriodLimit
deriving DecidableEq

structure UserLimits where
  tier : Tier
  deposit : FlowLimits
  withdrawal : FlowLimits
deriving DecidableEq

def Counter.limit (c : Counter) (cap : Decimal) : Except Overflow PeriodLimit := do
  pure ⟨cap, c.used, ← c.remaining cap, c.resetAt⟩

def Meter.limits (m : Meter) (caps : Caps) : Except Overflow FlowLimits := do
  pure ⟨caps.minimum, ← m.daily.limit caps.daily, ← m.monthly.limit caps.monthly⟩

def Usage.limits (u : Usage) (tier : Tier) : Except Overflow UserLimits := do
  pure
    ⟨tier, ← u.deposit.limits (tier.caps .deposit), ← u.withdrawal.limits (tier.caps .withdrawal)⟩

end Causeway.Quota
