/-!
# The calendar

Days are counted from 1970-01-01, and months from January of the year zero, twelve a year. Leap
years follow the Gregorian rule before 1582 too. `firstDay` and `monthOf` lead from months to days
and back.
-/

namespace Causeway.Calendar

def isLeap (year : Int) : Bool := year % 4 = 0 ∧ (year % 100 ≠ 0 ∨ year % 400 = 0)

def yearStart (year : Int) : Int :=
  365 * (year - 1970) + ((year - 1) / 4 - (year - 1) / 100 + (year - 1) / 400 - 477)

/-- The days of a year before its month `k`, January being 0. -/
def daysBefore (leap : Bool) (k : Nat) : Nat :=
  [0, 31, 59, 90, 120, 151, 181, 212, 243, 273, 304, 334].getD k 365
    + if leap ∧ 2 ≤ k then 1 else 0

def firstDay (month : Int) : Int :=
  yearStart (month / 12) + daysBefore (isLeap (month / 12)) (month % 12).toNat

/-- The year that holds a day: a guess from the mean length of a year, off by at most one. -/
def yearOf (day : Int) : Int :=
  let guess := 400 * (day + 719162) / 146097 + 1
  if yearStart (guess + 1) ≤ day then guess + 1
  else if day < yearStart guess then guess - 1
  else guess

def monthOf (day : Int) : Int :=
  let year := yearOf day
  let begun := (List.range 12).filter fun k => yearStart year + daysBefore (isLeap year) k ≤ day
  12 * year + (begun.length - 1)

def dayOf? (year : Int) (month day : Nat) : Option Int :=
  if 1 ≤ month ∧ month ≤ 12 ∧ 1 ≤ day then
    let m := 12 * year + (month - 1)
    if firstDay m + day ≤ firstDay (m + 1) then some (firstDay m + day - 1) else none
  else none

end Causeway.Calendar
