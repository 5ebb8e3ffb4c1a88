/-!
# The stages of a deposit

A deposit moves from its record to the rail, over the rail, and on to the brokerage, and may fail
at any stage before the last.
-/

namespace Causeway.Deposit

inductive Status where
  | created
  | railInitiated
  | railCompleted
  | brokerFunded
  | failed
deriving DecidableEq

namespace Status

def name : Status → String
  | created => "created"
  | railInitiated => "rail_initiated"
  | railCompleted => "rail_completed"
  | brokerFunded => "broker_funded"
  | failed => "failed"

/-- Stages follow one another in order, or end in failure. -/
def canBecome : Status → Status → Bool
  | created, railInitiated => true
  | railInitiated, railCompleted => true
  | railCompleted, brokerFunded => true
  | created, failed => true
  | railInitiated, failed => true
  | railCompleted, failed => true
  | _, _ => false

def isTerminal : Status → Bool
  | brokerFunded => true
  | failed => true
  | _ => false

/-- Nothing follows a terminal stage, and some stage follows every other. -/
theorem isTerminal_iff (s : Status) : s.isTerminal ↔ ∀ t, s.canBecome t = false := by
  constructor
  · intro h t
    cases s <;> cases t <;> simp_all [isTerminal, canBecome]
  · intro h
    have := h .failed
    cases s <;> simp_all [isTerminal, canBecome]

end Status

end Causeway.Deposit
