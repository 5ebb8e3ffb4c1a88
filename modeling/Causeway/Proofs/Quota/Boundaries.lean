import Causeway.Proofs.Calendar.Dates
import Causeway.Proofs.Quota.AnyClock

/-!
# Resets on the calendar

By the dates of the civil calendar, a day ends with the next midnight and a month with the midnight
of the next first of a month. Where the range of the instants ends before, the last instant stands
for it (`resets_are_calendar_boundaries`).
-/

namespace Causeway.Quota

open Calendar (Date Falls)

variable {p : Period} {d : Date} {day : Int} {now later t : Instant}

/-- The midnight with which a date begins. -/
def Opens (t : Instant) (d : Date) : Prop := t.second = 0 ∧ t.nano = 0 ∧ Falls d t.day

theorem opens_iff : Opens t d ↔ t.second = 0 ∧ t.nano = 0 ∧ Calendar.dateOf t.day = d := by
  rw [Opens, Calendar.falls_iff]

theorem begins_daily_iff : Period.daily.Begins t ↔ ∃ d, Opens t d := by
  constructor
  · intro h
    exact ⟨_, h.1, h.2, Calendar.falls_dateOf t.day⟩
  · rintro ⟨d, hsecond, hnano, _⟩
    exact ⟨hsecond, hnano⟩

theorem begins_monthly_iff : Period.monthly.Begins t ↔ ∃ d, d.day = 1 ∧ Opens t d := by
  constructor
  · intro h
    exact ⟨_, Calendar.day_dateOf_eq_one_iff.mpr h.2.2, h.1, h.2.1, Calendar.falls_dateOf t.day⟩
  · rintro ⟨d, hfirst, hsecond, hnano, hfalls⟩
    rw [← hfalls.dateOf_eq, Calendar.day_dateOf_eq_one_iff] at hfirst
    exact ⟨hsecond, hnano, hfirst⟩

/-- The date on which the period after that of a date begins. -/
def Period.following : Period → Date → Date
  | .daily => Date.next
  | .monthly => Date.monthAfter

theorem Period.falls_following (p : Period) (now : Instant) :
    Falls (p.following (Calendar.dateOf now.day)) (p.nextDay now) := by
  cases p with
  | daily => exact Calendar.falls_iff.mpr (Calendar.dateOf_succ now.day)
  | monthly => exact Calendar.falls_iff.mpr (Calendar.dateOf_monthAfter now.day)

/-- The next period begins within the range if the range holds the date on which it begins. -/
theorem Period.exists_opens_iff (p : Period) (now : Instant) :
    (∃ t, Opens t (p.following (Calendar.dateOf now.day))) ↔ p.nextDay now ≤ Instant.maxDay := by
  have hnext := (p.falls_following now).dateOf_eq
  constructor
  · rintro ⟨t, hopens⟩
    have hday := (opens_iff.mp hopens).2.2
    rw [← Calendar.dateOf_inj (hday.trans hnext.symm)]
    exact t.day_le
  · intro hmax
    obtain ⟨t, -, hday, hbegins⟩ := begins_nextDay hmax
    exact ⟨t, hbegins.midnight.1, hbegins.midnight.2, hday ▸ p.falls_following now⟩

theorem Period.reset_mono (p : Period) (h : now ≤ later) : p.reset now ≤ p.reset later := by
  rcases p.reset_isNext later with ⟨⟨hbegins, hlt⟩, -⟩ | ⟨hlast, -⟩
  · have hlt' : now < p.reset later := Int.lt_of_le_of_lt h hlt
    rcases p.reset_isNext now with ⟨-, hleast⟩ | ⟨-, hnone⟩
    · exact hleast ⟨hbegins, hlt'⟩
    · exact absurd hlt' (hnone _ hbegins)
  · rw [hlast]
    exact reset_le_last p now

/-! ## Both resets -/

open scoped Classical in
/-- The least midnight after an instant ends its day, and the least one of a first of a month its
month, whatever the year. -/
theorem resets_are_calendar_boundaries (now : Instant) :
    ∃ today, Falls today now.day ∧
      (if ∃ t, Opens t today.next then
        IsLeast {t | (∃ d, Opens t d) ∧ now < t} now.nextMidnight
      else now.nextMidnight = .last) ∧
      (if ∃ t, Opens t today.monthAfter then
        IsLeast {t | (∃ d, d.day = 1 ∧ Opens t d) ∧ now < t} now.nextMonth
      else now.nextMonth = .last) ∧
      (∀ later, now ≤ later →
        now.nextMidnight ≤ later.nextMidnight ∧ now.nextMonth ≤ later.nextMonth) ∧
      now.nextMidnight ≤ now.nextMonth := by
  refine ⟨_, Calendar.falls_dateOf now.day, ?_, ?_, ?_, Period.daily_reset_le_monthly now⟩
  · split
    · rename_i hopens
      have hleast := Period.reset_isLeast ((Period.daily.exists_opens_iff now).mp hopens)
      simp only [begins_daily_iff] at hleast
      exact hleast
    · rename_i hopens
      exact Period.reset_eq_last (mt (Period.daily.exists_opens_iff now).mpr hopens)
  · split
    · rename_i hopens
      have hleast := Period.reset_isLeast ((Period.monthly.exists_opens_iff now).mp hopens)
      simp only [begins_monthly_iff] at hleast
      exact hleast
    · rename_i hopens
      exact Period.reset_eq_last (mt (Period.monthly.exists_opens_iff now).mpr hopens)
  · intro later h
    exact ⟨Period.daily.reset_mono h, Period.monthly.reset_mono h⟩

end Causeway.Quota
