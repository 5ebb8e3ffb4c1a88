import Causeway.Proofs.Quota.Counter
import Mathlib.Order.Bounds.Defs

/-!
# When periods begin

A day begins at its midnight and a month at the midnight of its first day. The reset of a period is
the first such instant after the one it is asked for, or the last instant if there is none
(`Period.reset_isNext`).
-/

namespace Causeway.Quota

variable {p : Period} {now t : Instant}

def Period.Begins : Period → Instant → Prop
  | .daily, t => t.second = 0 ∧ t.nano = 0
  | .monthly, t =>
    t.second = 0 ∧ t.nano = 0 ∧ Calendar.firstDay (Calendar.monthOf t.day) = t.day

theorem Period.Begins.midnight (h : p.Begins t) : t.second = 0 ∧ t.nano = 0 := by
  cases p with
  | daily => exact h
  | monthly => exact ⟨h.1, h.2.1⟩

theorem Period.Begins.le_of_day {t' : Instant} (h : p.Begins t) (hday : t.day ≤ t'.day) :
    t ≤ t' := by
  obtain ⟨hsecond, hnano⟩ := h.midnight
  show t.key ≤ t'.key
  unfold Instant.key
  omega

/-- The day that follows the period of an instant. -/
def Period.nextDay : Period → Instant → Int
  | .daily, now => now.day + 1
  | .monthly, now => Calendar.firstDay (Calendar.monthOf now.day + 1)

theorem Period.reset_eq_midnight (p : Period) (now : Instant) :
    p.reset now = (Instant.midnight? (p.nextDay now)).getD .last := by
  cases p <;> rfl

theorem Period.day_lt_nextDay (p : Period) (now : Instant) : now.day < p.nextDay now := by
  cases p with
  | daily => exact Int.lt_succ now.day
  | monthly => exact (Calendar.firstDay_monthOf now.day).2

/-- No period begins between an instant and the day that follows its own. -/
theorem Period.nextDay_le (hbegins : p.Begins t) (hlt : now < t) : p.nextDay now ≤ t.day := by
  obtain ⟨hsecond, hnano⟩ := hbegins.midnight
  have hday : now.day < t.day := by
    have hkey : now.key < t.key := hlt
    unfold Instant.key at hkey
    omega
  cases p with
  | daily => exact hday
  | monthly =>
      have hfirst : Calendar.firstDay (Calendar.monthOf t.day) = t.day := hbegins.2.2
      have hmonth : ¬ Calendar.monthOf t.day ≤ Calendar.monthOf now.day := by
        rw [← Calendar.firstDay_le_iff, hfirst]
        omega
      rw [← hfirst]
      exact Calendar.firstDay_mono (by omega)

theorem Period.begins_nextDay (hmax : p.nextDay now ≤ Instant.maxDay) :
    ∃ t, Instant.midnight? (p.nextDay now) = some t ∧ t.day = p.nextDay now ∧ p.Begins t := by
  have hlt := p.day_lt_nextDay now
  have hday := now.day_ge
  refine ⟨_, dif_pos ⟨⟨by omega, hmax⟩, by decide, by decide, by decide⟩, rfl, ?_⟩
  cases p with
  | daily => exact ⟨rfl, rfl⟩
  | monthly => exact ⟨rfl, rfl, congrArg Calendar.firstDay (Calendar.monthOf_firstDay _)⟩

/-- The next period begins with the reset, if its first day is in the range. -/
theorem Period.reset_isLeast (hmax : p.nextDay now ≤ Instant.maxDay) :
    IsLeast {t | p.Begins t ∧ now < t} (p.reset now) := by
  obtain ⟨t, ht, hday, hbegins⟩ := begins_nextDay hmax
  rw [reset_eq_midnight, ht, Option.getD_some]
  refine ⟨⟨hbegins, ?_⟩, fun t' ht' => ?_⟩
  · by_contra hle
    have := Instant.day_le_of_le (Int.not_lt.mp hle)
    have := p.day_lt_nextDay now
    omega
  · exact hbegins.le_of_day (hday ▸ nextDay_le ht'.1 ht'.2)

theorem Period.reset_eq_last (hmax : ¬ p.nextDay now ≤ Instant.maxDay) : p.reset now = .last := by
  have hnone : Instant.midnight? (p.nextDay now) = none := dif_neg fun h => hmax h.1.2
  rw [reset_eq_midnight, hnone, Option.getD_none]

/-- An instant that is the first to begin a period after `now`, or the last one if there is none. -/
def Period.IsNext (p : Period) (now t : Instant) : Prop :=
  IsLeast {t | p.Begins t ∧ now < t} t ∨ t = .last ∧ ∀ t, p.Begins t → ¬ now < t

theorem Period.reset_isNext (p : Period) (now : Instant) : p.IsNext now (p.reset now) := by
  by_cases hmax : p.nextDay now ≤ Instant.maxDay
  · exact Or.inl (reset_isLeast hmax)
  · refine Or.inr ⟨reset_eq_last hmax, fun t hbegins hlt => ?_⟩
    have := nextDay_le hbegins hlt
    have := t.day_le
    unfold Instant.maxDay at hmax
    omega

end Causeway.Quota
