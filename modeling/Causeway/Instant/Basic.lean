import Causeway.Calendar

/-!
# Instants

An instant is a day, a second of the day and a nanosecond, in universal time, from the year -262143
to the year 262142. Within the last second of a minute the nanoseconds may run on for one leap
second. `nextMidnight` and `nextMonth` are the ends of an instant's day and month.
-/

namespace Causeway

structure Instant where
  day : Int
  second : Nat
  nano : Nat
  day_ge : -96465292 ≤ day
  day_le : day ≤ 95026236
  second_lt : second < 86400
  nano_lt : nano < 2000000000
  leap : 1000000000 ≤ nano → second % 60 = 59
deriving DecidableEq

namespace Instant

def minDay : Int := -96465292

def maxDay : Int := 95026236

def ofParts? (day : Int) (second nano : Nat) : Option Instant :=
  if h : (-96465292 ≤ day ∧ day ≤ 95026236) ∧ second < 86400 ∧ nano < 2000000000
      ∧ (1000000000 ≤ nano → second % 60 = 59) then
    some ⟨day, second, nano, h.1.1, h.1.2, h.2.1, h.2.2.1, h.2.2.2⟩
  else none

def epoch : Instant :=
  ⟨0, 0, 0, by decide, by decide, by decide, by decide, by decide⟩

def last : Instant :=
  ⟨95026236, 86399, 999999999, by decide, by decide, by decide, by decide, by decide⟩

instance : Inhabited Instant := ⟨epoch⟩

/-- The instant that is `n` nanoseconds after the start of 1970, if it is in the range. -/
def ofNanos? (n : Int) : Option Instant :=
  let seconds := Int.fdiv n 1000000000
  ofParts? (Int.fdiv seconds 86400) (Int.fmod seconds 86400).toNat (Int.fmod n 1000000000).toNat

/-! ## Order -/

/-- Instants are ordered by day, then second, then nanosecond. -/
def key (t : Instant) : Int :=
  (t.day * 86400 + t.second) * 2000000000 + t.nano

instance : LE Instant := ⟨fun s t => s.key ≤ t.key⟩

instance : LT Instant := ⟨fun s t => s.key < t.key⟩

instance (s t : Instant) : Decidable (s ≤ t) := inferInstanceAs (Decidable (s.key ≤ t.key))

instance (s t : Instant) : Decidable (s < t) := inferInstanceAs (Decidable (s.key < t.key))

/-! ## Periods -/

def midnight? (day : Int) : Option Instant := ofParts? day 0 0

/-- The midnight that ends the day of `t`, or the last instant if the range ends first. -/
def nextMidnight (t : Instant) : Instant := (midnight? (t.day + 1)).getD last

/-- The midnight that ends the month of `t`, or the last instant if the range ends first. -/
def nextMonth (t : Instant) : Instant :=
  (midnight? (Calendar.firstDay (Calendar.monthOf t.day + 1))).getD last

/-! ## Distance -/

/-- The nanoseconds from `s` to `t`. A leap second of the earlier one counts when the later one
is at a later second of the day. -/
def nanosSince (t s : Instant) : Int :=
  let leap : Int :=
    if s.second < t.second then if 1000000000 ≤ s.nano then 1 else 0
    else if t.second < s.second then if 1000000000 ≤ t.nano then -1 else 0
    else 0
  ((t.day - s.day) * 86400 + (t.second - s.second) + leap) * 1000000000 + (t.nano - s.nano)

/-- One second later, or the same instant if the range ends before. -/
def addSecond (t : Instant) : Instant :=
  let n := if 1000000000 ≤ t.nano then t.nano - 1000000000 else t.nano
  (ofParts? (t.day + ((t.second + 1) / 86400 : Nat)) ((t.second + 1) % 86400) n).getD t

end Instant

end Causeway
