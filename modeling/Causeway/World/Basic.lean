import Causeway.Account
import Causeway.Brokerage.Sandbox
import Causeway.Rail.Sandbox
import Causeway.Retry.Timer
import Causeway.Store.Deposits
import Causeway.Store.Usages
import Causeway.World.Script

/-!
# The world that programs run in

The world holds the stores, the sandboxes of the rail and the brokerage, the claims on deposits that
are being funded, the script of faults, and the sources of time and of fresh identifiers.
-/

namespace Causeway

inductive Outbound where
  | create (order : Rail.Order)
  | list (limit offset : Nat)
  | fund (key account : String) (amount : Decimal)
deriving DecidableEq

structure World where
  clock : Nat → Instant
  readings : Nat := 0
  ids : Nat → Uuid
  drawn : Nat := 0
  timer : Retry.Timer := {}
  deposits : Store.Deposits := {}
  usages : Store.Usages := {}
  accounts : Table Uuid VirtualAccount := .empty
  users : Table Uuid User := .empty
  /-- The deposits that are being funded. -/
  claims : List Uuid := []
  rail : Rail.Sandbox := {}
  brokerage : Brokerage.Sandbox := {}
  script : Script := {}
  /-- Latest first. -/
  outbound : List Outbound := []

namespace World

def readClock (w : World) : Instant × World :=
  (w.clock w.readings, { w with readings := w.readings + 1 })

def freshId (w : World) : Uuid × World := (w.ids w.drawn, { w with drawn := w.drawn + 1 })

def setClock (w : World) (now : Instant) : World := { w with clock := fun _ => now }

def accountByRail? (w : World) (railAccount : String) : Option VirtualAccount :=
  w.accounts.values.find? (·.railAccount = railAccount)

def addUser (w : World) (u : User) : World := { w with users := w.users.insert u.id u }

def addAccount (w : World) (a : VirtualAccount) : World :=
  { w with accounts := w.accounts.insert a.id a }

end World

end Causeway
