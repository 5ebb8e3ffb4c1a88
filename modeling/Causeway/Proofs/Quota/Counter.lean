import Causeway.Proofs.Calendar
import Causeway.Proofs.Decimal
import Causeway.Quota.Usage

/-!
# What a counter holds

A counter holds the sum of what was added in the period of some instant. It is started anew exactly
when that period is over (`reset_le_iff`), so once it has been rolled it holds the sum of the period
that is running.
-/

namespace Causeway

namespace Instant

variable {s t : Instant}

theorem day_le_of_le (h : s ≤ t) : s.day ≤ t.day := by
  have h : s.key ≤ t.key := h
  have := s.second_lt
  have := t.second_lt
  have := s.nano_lt
  have := t.nano_lt
  unfold key at h
  omega

theorem last_le_iff : last ≤ t ↔ ¬ t < last :=
  Int.not_lt.symm

/-- A midnight of the range or, beyond it, the last instant: before that, it comes with its day. -/
theorem midnight_le_iff (day : Int) (hday : minDay ≤ day) (ht : t < last) :
    (midnight? day).getD last ≤ t ↔ day ≤ t.day := by
  by_cases hmax : day ≤ maxDay
  · have hm : midnight? day = some ⟨day, 0, 0, hday, hmax, by decide, by decide, by decide⟩ :=
      dif_pos ⟨⟨hday, hmax⟩, by decide, by decide, by decide⟩
    rw [hm, Option.getD_some]
    constructor
    · exact day_le_of_le
    · intro h
      show (day * 86400 + (0 : Nat)) * 2000000000 + (0 : Nat) ≤ t.key
      unfold key
      omega
  · have hm : midnight? day = none := dif_neg fun h => hmax h.1.2
    rw [hm, Option.getD_none, last_le_iff]
    have := t.day_le
    unfold maxDay at hmax
    constructor
    · exact fun h => absurd ht h
    · omega

end Instant

namespace Quota

variable {p : Period} {s t now : Instant}

/-- The number of the day or the month that holds an instant. -/
def Period.index : Period → Instant → Int
  | .daily, t => t.day
  | .monthly, t => Calendar.monthOf t.day

theorem Period.index_mono (h : s ≤ t) : p.index s ≤ p.index t := by
  cases p with
  | daily => exact Instant.day_le_of_le h
  | monthly => exact Calendar.monthOf_mono (Instant.day_le_of_le h)

theorem Period.reset_eq (h : p.index s = p.index t) : p.reset s = p.reset t := by
  cases p with
  | daily =>
      have h : s.day = t.day := h
      simp only [reset, Instant.nextMidnight, h]
  | monthly =>
      have h : Calendar.monthOf s.day = Calendar.monthOf t.day := h
      simp only [reset, Instant.nextMonth, h]

/-- Before the last instant, a period is over when the index has moved on. -/
theorem Period.reset_le_iff (ht : t < .last) : p.reset s ≤ t ↔ p.index s < p.index t := by
  have hday := s.day_ge
  cases p with
  | daily =>
      have h := Instant.midnight_le_iff (s.day + 1) (by unfold Instant.minDay; omega) ht
      exact h.trans Int.add_one_le_iff
  | monthly =>
      have hnext := (Calendar.firstDay_monthOf s.day).2
      have h := Instant.midnight_le_iff (Calendar.firstDay (Calendar.monthOf s.day + 1))
        (by unfold Instant.minDay; omega) ht
      exact h.trans (Calendar.firstDay_le_iff.trans Int.add_one_le_iff)

/-! ## Sums -/

/-- The sum of what was added in one period. -/
def sumIn (p : Period) (i : Int) (xs : List (Instant × ℚ)) : ℚ :=
  ((xs.filter fun x => p.index x.1 = i).map Prod.snd).sum

theorem sumIn_cons (p : Period) (i : Int) (x : Instant × ℚ) (xs : List (Instant × ℚ)) :
    sumIn p i (x :: xs) = (if p.index x.1 = i then x.2 else 0) + sumIn p i xs := by
  unfold sumIn
  by_cases h : p.index x.1 = i <;> simp [h]

theorem sumIn_eq_zero {i : Int} {xs : List (Instant × ℚ)} (h : ∀ x ∈ xs, p.index x.1 < i) :
    sumIn p i xs = 0 := by
  induction xs with
  | nil => rfl
  | cons x xs ih =>
      have hx := h x (by simp)
      rw [sumIn_cons, if_neg (by omega), ih fun y hy => h y (by simp [hy]), Rat.zero_add]

/-! ## Counters -/

variable {c : Counter} {xs : List (Instant × ℚ)}

/-- Since `t` at the latest the counter is in the period of `t`, and of what was added up to then it
holds the sum of that period. -/
structure Counter.Holds (c : Counter) (p : Period) (xs : List (Instant × ℚ)) (t : Instant) :
    Prop where
  resetAt : c.resetAt = p.reset t
  upTo : ∀ x ∈ xs, p.index x.1 ≤ p.index t
  used : c.used.value = sumIn p (p.index t) xs

theorem Counter.Holds.start (h : ∀ x ∈ xs, p.index x.1 < p.index now) :
    (Counter.start p now).Holds p xs now where
  resetAt := rfl
  upTo x hx := Int.le_of_lt (h x hx)
  used := by rw [sumIn_eq_zero h]; exact Decimal.value_zero

theorem Counter.Holds.roll (h : c.Holds p xs t) (ht : t ≤ now) (hlast : now < .last) :
    (c.roll p now).Holds p xs now := by
  have hexp : c.expired now ↔ p.index t < p.index now := by
    simp [expired, h.resetAt, Period.reset_le_iff hlast]
  have hle : p.index t ≤ p.index now := Period.index_mono ht
  unfold Counter.roll
  split
  · have hlt := hexp.mp ‹_›
    exact .start fun x hx => Int.lt_of_le_of_lt (h.upTo x hx) hlt
  · have heq : p.index t = p.index now := by
      rename_i hne
      rw [hexp] at hne
      omega
    exact ⟨h.resetAt.trans (Period.reset_eq heq), by rw [← heq]; exact h.upTo,
      by rw [← heq]; exact h.used⟩

theorem Counter.Holds.add (h : c.Holds p xs now) {amount used : Decimal}
    (ha : used.value = c.used.value + amount.value) :
    Counter.Holds { c with used } p ((now, amount.value) :: xs) now where
  resetAt := h.resetAt
  upTo x hx := by
    rcases List.mem_cons.mp hx with rfl | hx
    · exact Int.le_refl _
    · exact h.upTo x hx
  used := by
    rw [sumIn_cons, if_pos rfl, ← h.used, Rat.add_comm]
    exact ha

/-! ## Meters -/

variable {m : Meter} {amount : Decimal}

structure Meter.Holds (m : Meter) (xs : List (Instant × ℚ)) (t : Instant) : Prop where
  daily : m.daily.Holds .daily xs t
  monthly : m.monthly.Holds .monthly xs t

theorem Meter.Holds.start : (Meter.start now).Holds [] now :=
  ⟨.start (fun _ hx => nomatch hx), .start (fun _ hx => nomatch hx)⟩

theorem Meter.Holds.roll (h : m.Holds xs t) (ht : t ≤ now) (hlast : now < .last) :
    (m.roll now).Holds xs now :=
  ⟨h.daily.roll ht hlast, h.monthly.roll ht hlast⟩

theorem Meter.Holds.during (h : m.Holds xs t) (p : Period) : (m.during p).Holds p xs t := by
  cases p with
  | daily => exact h.daily
  | monthly => exact h.monthly

/-- Neither sum overflows or is rounded. -/
structure Meter.AddsExactly (m : Meter) (amount : Decimal) : Prop where
  daily : m.daily.used.AddsExactly amount
  monthly : m.monthly.used.AddsExactly amount

theorem Meter.AddsExactly.add (he : m.AddsExactly amount) :
    ∃ daily monthly, daily.value = m.daily.used.value + amount.value ∧
      monthly.value = m.monthly.used.value + amount.value ∧
      m.add amount = (⟨{ m.daily with used := daily }, { m.monthly with used := monthly }⟩, none) := by
  obtain ⟨daily, hd, hdv⟩ := he.daily
  obtain ⟨monthly, hm, hmv⟩ := he.monthly
  refine ⟨daily, monthly, hdv, hmv, ?_⟩
  simp only [Meter.add, hd, hm]

theorem Meter.Holds.add (h : m.Holds xs now) (he : m.AddsExactly amount) :
    (m.add amount).1.Holds ((now, amount.value) :: xs) now := by
  obtain ⟨daily, monthly, hd, hm, hadd⟩ := he.add
  rw [hadd]
  exact ⟨h.daily.add hd, h.monthly.add hm⟩

/-! ## Usage -/

variable {u : Usage} {flow : Flow}

/-- What has not ended is not started anew, so rolling a usage rolls each of its meters. -/
theorem Usage.meter_roll (u : Usage) (flow : Flow) (now : Instant) :
    (u.roll now).meter flow = (u.meter flow).roll now := by
  have hkeep : ∀ m : Meter, m.expired now = false → m.roll now = m := by
    intro m hm
    simp only [Meter.expired, Bool.or_eq_false_iff] at hm
    simp only [Meter.roll, Counter.roll, hm.1, hm.2]
    rfl
  unfold roll
  split
  · cases flow <;> rfl
  · rename_i h
    simp only [expired, Bool.or_eq_true, not_or, Bool.not_eq_true] at h
    cases flow with
    | deposit => exact (hkeep _ h.1).symm
    | withdrawal => exact (hkeep _ h.2).symm

theorem Usage.add_eq_none (he : ((u.meter flow).roll now).AddsExactly amount) :
    (u.add flow amount now).2 = none := by
  rw [← meter_roll] at he
  obtain ⟨daily, monthly, _, _, hadd⟩ := he.add
  simp only [add, hadd]

theorem Usage.holds_add (he : ((u.meter flow).roll now).AddsExactly amount)
    (h : ((u.meter flow).roll now).Holds xs now) :
    ((u.add flow amount now).1.meter flow).Holds ((now, amount.value) :: xs) now := by
  rw [← meter_roll] at he h
  have hholds := h.add he
  simp only [add]
  obtain ⟨daily, monthly, _, _, hadd⟩ := he.add
  rw [hadd] at hholds ⊢
  cases flow with
  | deposit => exact hholds
  | withdrawal => exact hholds

/-- What is added to one flow leaves the other as the roll left it. -/
theorem Usage.meter_add_of_ne {flow' : Flow} (h : flow' ≠ flow) :
    (u.add flow amount now).1.meter flow' = (u.meter flow').roll now := by
  have hkeep : ∀ m, ((u.roll now).withMeter flow m).meter flow' = (u.roll now).meter flow' := by
    intro m
    cases flow <;> cases flow' <;> simp_all [withMeter, meter]
  rw [← meter_roll]
  simp only [add]
  split
  · exact hkeep _
  · exact hkeep _

end Quota

end Causeway
