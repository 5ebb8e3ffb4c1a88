import Causeway.Failure

/-!
# Scripted faults

A script makes store calls fail, puts another writer in the way of an update, and slows calls down.
What waits for a kind of call is spent in order, one call at a time.
-/

namespace Causeway

inductive StoreCall where
  | depositsCreate
  | depositsUpdate
  | depositsById
  | depositsByTransfer
  | depositsIn (status : Deposit.Status)
  | accountsByRail
  | accountsById
  | usageIncrement
  | usageApply
  | usageReset
deriving DecidableEq

inductive OutboundCall where
  | railCreate
  | railList
  | brokerageFund
deriving DecidableEq

structure Script where
  faults : List (StoreCall × Failure) := []
  updateFaults : List (Deposit.Status × Failure) := []
  /-- The stages another writer moves a deposit through before the next update. -/
  race : Option (List Deposit.Status) := none
  delays : List (OutboundCall × Nat) := []
deriving DecidableEq

namespace Script

def takeFirst {κ ν : Type} [DecidableEq κ] (k : κ) : List (κ × ν) → Option (ν × List (κ × ν))
  | [] => none
  | (k', v) :: es =>
    if k' = k then some (v, es) else (takeFirst k es).map fun (w, es) => (w, (k', v) :: es)

def fault? (s : Script) (c : StoreCall) : Option (Failure × Script) :=
  (takeFirst c s.faults).map fun (e, faults) => (e, { s with faults })

def updateFault? (s : Script) (status : Deposit.Status) : Option (Failure × Script) :=
  (takeFirst status s.updateFaults).map fun (e, updateFaults) => (e, { s with updateFaults })

/-- The delay of a successful call. -/
def delay (s : Script) (c : OutboundCall) : Nat × Script :=
  match takeFirst c s.delays with
  | some (ms, delays) => (ms, { s with delays })
  | none => (0, s)

end Script

end Causeway
