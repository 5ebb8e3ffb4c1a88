import Causeway.Failure
import Causeway.Table

/-!
# The usage store

Each user has one set of counters, begun when it is first needed. A funded deposit is applied to
them once, under its id.
-/

namespace Causeway.Store

open Quota

structure Usages where
  byUser : Table Uuid Usage := .empty
  applied : List Uuid := []
deriving DecidableEq

/-- What a change of counters gives: nothing when it overflowed. -/
abbrev Usages.Changed (α : Type) := Except Overflow (Except Failure α) × Usages

namespace Usages

def entry (s : Usages) (user : Uuid) (now : Instant) : Usage :=
  (s.byUser.get? user).getD (.start user now)

def put (s : Usages) (u : Usage) (user : Uuid) : Usages :=
  { s with byUser := s.byUser.insert user u }

/-- The counters as they are, begun at `now` if there are none. -/
def getOrCreate (s : Usages) (user : Uuid) (now : Instant) : Usage × Usages :=
  let u := s.entry user now
  (u, s.put u user)

/-- The counters once those whose period has ended have been started anew. -/
def reset (s : Usages) (user : Uuid) (now : Instant) : Usage × Usages :=
  let u := (s.entry user now).roll now
  (u, s.put u user)

def addEntry (s : Usages) (user : Uuid) (flow : Flow) (amount : Decimal) (now : Instant) :
    Usages × Option Overflow :=
  let (u, overflow) := (s.entry user now).add flow amount now
  (s.put u user, overflow)

def increment (s : Usages) (user : Uuid) (flow : Flow) (amount : Decimal) (now : Instant) :
    Changed Unit :=
  if amount ≤ .zero then (.ok (.error (.invalid (.incrementNotPositive amount))), s)
  else match s.addEntry user flow amount now with
    | (s, none) => (.ok (.ok ()), s)
    | (s, some o) => (.error o, s)

/-- Adds a deposit's amount unless that deposit has been applied; true when it was added. The id is
noted before the counters move. -/
def apply (s : Usages) (user deposit : Uuid) (amount : Decimal) (now : Instant) : Changed Bool :=
  if amount ≤ .zero then (.ok (.error (.invalid (.incrementNotPositive amount))), s)
  else if deposit ∈ s.applied then (.ok (.ok false), s)
  else match { s with applied := s.applied ++ [deposit] }.addEntry user .deposit amount now with
    | (s, none) => (.ok (.ok true), s)
    | (s, some o) => (.error o, s)

end Usages

end Causeway.Store
