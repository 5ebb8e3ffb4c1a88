import Causeway.Program.Basic

/-!
# The limit gate

The gate decides on amounts by a user's tier and counters. A decision uses up nothing; what has
moved is recorded on its own.
-/

namespace Causeway.Quota

def tierOf (user : Uuid) : Action Tier := do
  let u ← Program.request (.userById user)
  let u ← Action.orNotFound .user user.toText u
  pure u.tier

/-- The counters of a user once those whose period has ended have been started anew. -/
def current (user : Uuid) : Action Usage := .ask (.request (.resetUsage user))

def ofVerdict {α : Type} : Except Denial α → Action α
  | .ok a => pure a
  | .error d => throw (.overLimit d)

/-- The minimum is checked before any counter is read. -/
def validate (flow : Flow) (user : Uuid) (amount : Decimal) : Action Check := do
  let tier ← tierOf user
  ofVerdict (checkMinimum tier flow amount)
  let usage ← current user
  ofVerdict (← Action.ofOverflow (evaluate tier usage flow amount))

def record (flow : Flow) (user : Uuid) (amount : Amount) : Action Unit :=
  .ask (.request (.incrementUsage user flow amount.value))

/-- Counts a funded deposit, once; false if it had been counted. -/
def recordFunded (user deposit : Uuid) (amount : Amount) : Action Bool :=
  .ask (.request (.applyUsage user deposit amount.value))

def userLimits (user : Uuid) : Action UserLimits := do
  let tier ← tierOf user
  let usage ← current user
  Action.ofOverflow (usage.limits tier)

end Causeway.Quota
