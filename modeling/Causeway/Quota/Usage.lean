import Causeway.Instant.Basic
import Causeway.Quota.Caps
import Causeway.Uuid

/-!
# Usage counters

A counter sums what moved in a day or a month and starts anew once the instant of its reset has
come. A user has one of each period for each flow.
-/

namespace Causeway.Quota

structure Counter where
  used : Decimal
  resetAt : Instant
deriving DecidableEq

/-- The end of the period that holds `now`. -/
def Period.reset : Period → Instant → Instant
  | .daily, now => now.nextMidnight
  | .monthly, now => now.nextMonth

namespace Counter

def start (p : Period) (now : Instant) : Counter := ⟨.zero, p.reset now⟩

def expired (c : Counter) (now : Instant) : Bool := c.resetAt ≤ now

def roll (c : Counter) (p : Period) (now : Instant) : Counter :=
  if c.expired now then start p now else c

/-- What is left below a cap, never less than zero. -/
def remaining (c : Counter) (cap : Decimal) : Except Overflow Decimal :=
  (cap.sub c.used).map Decimal.clampNegative

end Counter

structure Meter where
  daily : Counter
  monthly : Counter
deriving DecidableEq

namespace Meter

def start (now : Instant) : Meter := ⟨.start .daily now, .start .monthly now⟩

def expired (m : Meter) (now : Instant) : Bool := m.daily.expired now || m.monthly.expired now

def roll (m : Meter) (now : Instant) : Meter :=
  ⟨m.daily.roll .daily now, m.monthly.roll .monthly now⟩

def during (m : Meter) : Period → Counter
  | .daily => m.daily
  | .monthly => m.monthly

/-- Adds to the daily and then to the monthly counter, up to the first that overflows. -/
def add (m : Meter) (amount : Decimal) : Meter × Option Overflow :=
  match m.daily.used.add amount with
  | .error o => (m, some o)
  | .ok daily =>
    let m := { m with daily := { m.daily with used := daily } }
    match m.monthly.used.add amount with
    | .error o => (m, some o)
    | .ok monthly => ({ m with monthly := { m.monthly with used := monthly } }, none)

end Meter

structure Usage where
  user : Uuid
  deposit : Meter
  withdrawal : Meter
  createdAt : Instant
  updatedAt : Instant
deriving DecidableEq

namespace Usage

def start (user : Uuid) (now : Instant) : Usage :=
  { user, deposit := .start now, withdrawal := .start now, createdAt := now, updatedAt := now }

def meter (u : Usage) : Flow → Meter
  | .deposit => u.deposit
  | .withdrawal => u.withdrawal

def withMeter (u : Usage) : Flow → Meter → Usage
  | .deposit, m => { u with deposit := m }
  | .withdrawal, m => { u with withdrawal := m }

def expired (u : Usage) (now : Instant) : Bool := u.deposit.expired now || u.withdrawal.expired now

def roll (u : Usage) (now : Instant) : Usage :=
  if u.expired now then
    { u with deposit := u.deposit.roll now, withdrawal := u.withdrawal.roll now, updatedAt := now }
  else u

/-- Adds an amount to both periods of a flow, after starting anew what has ended. An overflow
leaves what was added before it. -/
def add (u : Usage) (flow : Flow) (amount : Decimal) (now : Instant) : Usage × Option Overflow :=
  let u := u.roll now
  match (u.meter flow).add amount with
  | (m, none) => ({ u.withMeter flow m with updatedAt := now }, none)
  | (m, some o) => (u.withMeter flow m, some o)

end Usage

end Causeway.Quota
