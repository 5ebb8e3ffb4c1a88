import Causeway.Instant.Basic
import Causeway.Quota.Caps
import Causeway.Uuid

/-!
# Users and their accounts

A virtual account ties a user's account at the rail to the account at the brokerage.
-/

namespace Causeway

structure VirtualAccount where
  id : Uuid
  user : Uuid
  railAccount : String
  brokerageAccount : String
  createdAt : Instant
deriving DecidableEq

/-- A user with the status that the identity check reports. -/
structure User where
  id : Uuid
  status : String
deriving DecidableEq

def User.tier (u : User) : Quota.Tier := .ofStatus u.status

end Causeway
