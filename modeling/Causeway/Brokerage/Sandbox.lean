import Causeway.Failure
import Causeway.Table

/-!
# A brokerage in memory

Funding pays an amount into an account under a key. A key that has been used is answered with its
first reference, and no money moves.
-/

namespace Causeway.Brokerage

structure Funding where
  reference : String
  account : String
  amount : Decimal
deriving DecidableEq

structure Sandbox where
  /-- Oldest first. -/
  fundings : List Funding := []
  byKey : Table String String := .empty
  failures : List Failure := []
  calls : Nat := 0
deriving DecidableEq

namespace Sandbox

def referenceOf (fresh : Uuid) : String := "fund_" ++ fresh.toCompact

/-- Answers a funding, and says whether it moved money. -/
def fund (s : Sandbox) (key account : String) (amount : Decimal) (fresh : Uuid) :
    Except Failure (String × Bool) × Sandbox :=
  let s := { s with calls := s.calls + 1 }
  match s.failures with
  | e :: es => (.error e, { s with failures := es })
  | [] =>
    match s.byKey.get? key with
    | some reference => (.ok (reference, false), s)
    | none =>
      if amount ≤ .zero then (.error (.invalid (.fundingNotPositive amount)), s)
      else
        let reference := referenceOf fresh
        (.ok (reference, true),
          { s with
            fundings := s.fundings ++ [⟨reference, account, amount⟩]
            byKey := s.byKey.insert key reference })

end Sandbox

end Causeway.Brokerage
