import Causeway.Proofs.Quota.Period
import Causeway.Proofs.Store.Alike

/-!
# Counters under any clock

A month ends where a day ends. So whatever instants a usage is touched at, earlier ones after later
ones too, a monthly counter never ends before the daily one of its flow (`Meter.Coherent`): the day
starts anew whenever the month does, and the month holds at least what the day holds.
-/

namespace Causeway.Quota

variable {m m' : Meter} {c : Counter} {p : Period} {flow : Flow} {now t : Instant} {u : Usage}

/-! ## Ends of days -/

/-- A day ends at the instant, or the range does. -/
def EndsDay (t : Instant) : Prop := Period.daily.Begins t ∨ t = .last

theorem Period.endsDay_reset (p : Period) (now : Instant) : EndsDay (p.reset now) := by
  rcases p.reset_isNext now with ⟨⟨hbegins, -⟩, -⟩ | ⟨hlast, -⟩
  · exact .inl hbegins.midnight
  · exact .inr hlast

theorem Period.daily_reset_le (hends : EndsDay t) (hlt : now < t) : Period.daily.reset now ≤ t := by
  rcases hends with hbegins | rfl
  · rcases Period.daily.reset_isNext now with ⟨-, hleast⟩ | ⟨-, hnone⟩
    · exact hleast ⟨hbegins, hlt⟩
    · exact absurd hlt (hnone t hbegins)
  · exact reset_le_last _ _

theorem Period.daily_reset_le_monthly (now : Instant) :
    Period.daily.reset now ≤ Period.monthly.reset now := by
  rcases Period.monthly.reset_isNext now with ⟨⟨-, hlt⟩, -⟩ | ⟨hlast, -⟩
  · exact daily_reset_le (endsDay_reset _ now) hlt
  · rw [hlast]
    exact reset_le_last _ now

theorem Period.lt_reset (p : Period) (h : now < .last) : now < p.reset now := by
  rcases p.reset_isNext now with ⟨⟨-, hlt⟩, -⟩ | ⟨hlast, -⟩
  · exact hlt
  · rw [hlast]
    exact h

/-- What ends within the range and not after `now` ends no later than the period of `now`. -/
theorem Period.le_reset (p : Period) (hlast : t ≤ .last) (hle : t ≤ now) : t ≤ p.reset now := by
  rcases p.reset_isNext now with ⟨⟨-, hlt⟩, -⟩ | ⟨heq, -⟩
  · exact Int.le_trans hle (Int.le_of_lt hlt)
  · rw [heq]
    exact hlast

/-! ## Rolls -/

theorem Counter.expired_iff : c.expired now ↔ c.resetAt ≤ now := decide_eq_true_iff

theorem Counter.roll_of_expired (p : Period) (h : c.expired now) : c.roll p now = start p now :=
  if_pos h

theorem Counter.roll_of_not_expired (p : Period) (h : ¬ c.expired now) : c.roll p now = c :=
  if_neg h

theorem Counter.resetAt_le_roll (p : Period) (hlast : c.resetAt ≤ .last) :
    c.resetAt ≤ (c.roll p now).resetAt := by
  by_cases h : c.expired now
  · rw [roll_of_expired p h]
    exact p.le_reset hlast (expired_iff.mp h)
  · rw [roll_of_not_expired p h]
    exact Int.le_refl _

/-- A counter that has been rolled ends after the instant of the roll. -/
theorem Counter.lt_resetAt_roll (c : Counter) (p : Period) (hnow : now < .last) :
    now < (c.roll p now).resetAt := by
  by_cases h : c.expired now
  · rw [roll_of_expired p h]
    exact p.lt_reset hnow
  · rw [roll_of_not_expired p h]
    exact Int.not_le.mp fun hle => h (expired_iff.mpr hle)

theorem Meter.during_roll (m : Meter) (p : Period) (now : Instant) :
    (m.roll now).during p = (m.during p).roll p now := by
  cases p <;> rfl

theorem Usage.expired_eq_false (h : ∀ flow p, now < ((u.meter flow).during p).resetAt) :
    u.expired now = false := by
  have hkept : ∀ flow p, ((u.meter flow).during p).expired now = false := fun flow p =>
    decide_eq_false (Int.not_le.mpr (h flow p))
  have hmeter : ∀ flow, (u.meter flow).expired now = false := fun flow => by
    rw [Meter.expired, Bool.or_eq_false_iff]
    exact ⟨hkept flow .daily, hkept flow .monthly⟩
  rw [expired, Bool.or_eq_false_iff]
  exact ⟨hmeter .deposit, hmeter .withdrawal⟩

theorem Usage.roll_of_not_expired (h : u.expired now = false) : u.roll now = u := by
  rw [roll, h]
  exact if_neg Bool.false_ne_true

/-! ## Days within months -/

structure Meter.Coherent (m : Meter) : Prop where
  nonneg : 0 ≤ m.daily.used.value
  used_le : m.daily.used.value ≤ m.monthly.used.value
  resetAt_le : m.daily.resetAt ≤ m.monthly.resetAt
  resetAt_le_last : m.monthly.resetAt ≤ .last
  endsDay : EndsDay m.monthly.resetAt

namespace Meter.Coherent

theorem start (now : Instant) : (Meter.start now).Coherent where
  nonneg := Decimal.value_zero.ge
  used_le := le_refl _
  resetAt_le := Period.daily_reset_le_monthly now
  resetAt_le_last := Period.reset_le_last _ now
  endsDay := Period.endsDay_reset _ now

theorem used_nonneg (h : m.Coherent) (p : Period) : 0 ≤ (m.during p).used.value := by
  cases p with
  | daily => exact h.nonneg
  | monthly => exact h.nonneg.trans h.used_le

theorem le_last (h : m.Coherent) (p : Period) : (m.during p).resetAt ≤ .last := by
  cases p with
  | daily => exact Int.le_trans h.resetAt_le h.resetAt_le_last
  | monthly => exact h.resetAt_le_last

/-- A month that has ended has ended with a day. -/
theorem expired_together (h : m.Coherent) (hmonthly : m.monthly.expired now) :
    m.daily.expired now :=
  Counter.expired_iff.mpr (Int.le_trans h.resetAt_le (Counter.expired_iff.mp hmonthly))

theorem roll (h : m.Coherent) (now : Instant) : (m.roll now).Coherent := by
  unfold Meter.roll
  by_cases hmonthly : m.monthly.expired now
  · rw [Counter.roll_of_expired _ hmonthly, Counter.roll_of_expired _ (h.expired_together hmonthly)]
    exact .start now
  · rw [Counter.roll_of_not_expired _ hmonthly]
    have hlt : now < m.monthly.resetAt :=
      Int.not_le.mp fun hle => hmonthly (Counter.expired_iff.mpr hle)
    by_cases hdaily : m.daily.expired now
    · rw [Counter.roll_of_expired _ hdaily]
      exact
        { nonneg := Decimal.value_zero.ge
          used_le := Decimal.value_zero.le.trans (h.used_nonneg .monthly)
          resetAt_le := Period.daily_reset_le h.endsDay hlt
          resetAt_le_last := h.resetAt_le_last
          endsDay := h.endsDay }
    · rw [Counter.roll_of_not_expired _ hdaily]
      exact h

/-- The same amount more in both periods keeps them as they are to each other. -/
theorem more (h : m.Coherent) {amount : ℚ} (hamount : 0 ≤ amount)
    (hresetAt : ∀ p, (m'.during p).resetAt = (m.during p).resetAt)
    (hused : ∀ p, (m'.during p).used.value = (m.during p).used.value + amount) : m'.Coherent := by
  have hdaily : m'.daily.used.value = m.daily.used.value + amount := hused .daily
  have hmonthly : m'.monthly.used.value = m.monthly.used.value + amount := hused .monthly
  have hday : m'.daily.resetAt = m.daily.resetAt := hresetAt .daily
  have hmonth : m'.monthly.resetAt = m.monthly.resetAt := hresetAt .monthly
  constructor
  · rw [hdaily]
    exact add_nonneg h.nonneg hamount
  · rw [hdaily, hmonthly]
    exact add_le_add_left h.used_le amount
  · rw [hday, hmonth]
    exact h.resetAt_le
  · rw [hmonth]
    exact h.resetAt_le_last
  · rw [hmonth]
    exact h.endsDay

end Meter.Coherent

/-! ## Touches -/

/-- What touches a usage: an amount that moved, or a look. -/
inductive Touch where
  | add (flow : Flow) (amount : Amount) (now : Instant)
  | roll (now : Instant)

namespace Touch

def instant : Touch → Instant
  | .add _ _ now => now
  | .roll now => now

def run : Touch → Usage → Usage
  | .add flow amount now, u => (u.add flow amount.value now).1
  | .roll now, u => u.roll now

/-- The touch neither overflows nor rounds a sum. -/
def Exact : Touch → Usage → Prop
  | .add flow amount now, u => ((u.meter flow).roll now).AddsExactly amount.value
  | .roll _, _ => True

/-- What moves in a flow. -/
def moved : Touch → Flow → ℚ
  | .add flow amount _, flow' => if flow' = flow then amount.value.value else 0
  | .roll _, _ => 0

variable {x : Touch}

theorem moved_nonneg (x : Touch) (flow : Flow) : 0 ≤ x.moved flow := by
  cases x with
  | roll now => exact le_refl 0
  | add flow' amount now =>
      have hpos := Decimal.lt_iff.mp amount.pos
      rw [Decimal.value_zero] at hpos
      simp only [moved]
      split
      · exact hpos.le
      · exact le_refl 0

/-- A touch rolls every counter and then adds what moves. -/
theorem run_during (hx : x.Exact u) (flow : Flow) (p : Period) :
    (((x.run u).meter flow).during p).resetAt =
        (((u.meter flow).during p).roll p x.instant).resetAt ∧
      (((x.run u).meter flow).during p).used.value =
        (((u.meter flow).during p).roll p x.instant).used.value + x.moved flow := by
  rw [← Meter.during_roll]
  cases x with
  | roll now =>
      simp only [run, instant, moved, Usage.meter_roll, add_zero, and_self]
  | add flow' amount now =>
      by_cases hflow : flow = flow'
      · subst hflow
        obtain ⟨daily, monthly, hdaily, hmonthly, hadd⟩ := Meter.AddsExactly.add hx
        simp only [run, instant, moved, Usage.meter_add_self, hadd, if_true]
        cases p with
        | daily => exact ⟨rfl, hdaily⟩
        | monthly => exact ⟨rfl, hmonthly⟩
      · simp only [run, instant, moved, Usage.meter_add_of_ne hflow, if_neg hflow, add_zero,
          and_self]

end Touch

/-- What a touch makes of a meter: expired counters start anew, no reset is set back, and a month
that starts anew does so with a day. -/
structure Meter.Turns (x : Touch) (flow : Flow) (m m' : Meter) : Prop where
  resetAt : ∀ p, (m'.during p).resetAt =
    if (m.during p).expired x.instant then p.reset x.instant else (m.during p).resetAt
  used : ∀ p, (m'.during p).used.value =
    (if (m.during p).expired x.instant then 0 else (m.during p).used.value) + x.moved flow
  forward : ∀ p, (m.during p).resetAt ≤ (m'.during p).resetAt
  together : m.monthly.expired x.instant → m.daily.expired x.instant

theorem Meter.Coherent.turns {x : Touch} (h : (u.meter flow).Coherent) (hx : x.Exact u) :
    Meter.Turns x flow (u.meter flow) ((x.run u).meter flow) where
  resetAt p := by
    rw [(Touch.run_during hx flow p).1, Counter.roll]
    split <;> rfl
  used p := by
    rw [(Touch.run_during hx flow p).2, Counter.roll]
    split
    · rw [Counter.start, Decimal.value_zero]
    · rfl
  forward p := by
    rw [(Touch.run_during hx flow p).1]
    exact Counter.resetAt_le_roll p (h.le_last p)
  together := h.expired_together

theorem Meter.Coherent.touch {x : Touch} (h : (u.meter flow).Coherent) (hx : x.Exact u) :
    ((x.run u).meter flow).Coherent := by
  refine (h.roll x.instant).more (x.moved_nonneg flow) (fun p => ?_) fun p => ?_
  · rw [Meter.during_roll]
    exact (Touch.run_during hx flow p).1
  · rw [Meter.during_roll]
    exact (Touch.run_during hx flow p).2

/-! ## Runs -/

/-- The usage comes of touches at any instants, none of which overflowed or rounded a sum. -/
inductive Usage.Reached : Usage → Prop where
  | start (user : Uuid) (now : Instant) : Reached (.start user now)
  | touch {u : Usage} (h : Reached u) (x : Touch) (hx : x.Exact u) : Reached (x.run u)

theorem Usage.Reached.coherent (h : u.Reached) (flow : Flow) : (u.meter flow).Coherent := by
  induction h with
  | start user now =>
      rw [meter_start]
      exact .start now
  | touch _ x hx ih => exact ih.touch hx

/-- Whatever way the clock goes, counters are not negative, a day holds no more than its month and
ends no later, and no touch sets a reset back or starts a month anew without a day. A roll before the
last instant leaves all resets ahead, so that a second one does nothing. -/
theorem coherent_under_any_clock (h : u.Reached) :
    (∀ flow p, .zero ≤ ((u.meter flow).during p).used) ∧
      (∀ flow, (u.meter flow).daily.used ≤ (u.meter flow).monthly.used ∧
        (u.meter flow).daily.resetAt ≤ (u.meter flow).monthly.resetAt) ∧
      (∀ (x : Touch) flow, x.Exact u →
        Meter.Turns x flow (u.meter flow) ((x.run u).meter flow)) ∧
      ∀ now < .last, (∀ flow p, now < (((u.roll now).meter flow).during p).resetAt) ∧
        (u.roll now).expired now = false ∧ (u.roll now).roll now = u.roll now := by
  have hcoherent := h.coherent
  refine ⟨fun flow p => ?_, fun flow => ⟨?_, (hcoherent flow).resetAt_le⟩,
    fun x flow hx => (hcoherent flow).turns hx, fun now hnow => ?_⟩
  · rw [Decimal.le_iff, Decimal.value_zero]
    exact (hcoherent flow).used_nonneg p
  · rw [Decimal.le_iff]
    exact (hcoherent flow).used_le
  · have hahead : ∀ flow p, now < (((u.roll now).meter flow).during p).resetAt := by
      intro flow p
      rw [Usage.meter_roll, Meter.during_roll]
      exact Counter.lt_resetAt_roll _ p hnow
    have hkept := Usage.expired_eq_false hahead
    exact ⟨hahead, hkept, Usage.roll_of_not_expired hkept⟩

/-! ## A clock that goes back -/

namespace Touch.Sample

def fifty : Amount where
  value := { Decimal.zero with magnitude := 50, magnitude_lt := by decide }
  pos := by decide

def february : Instant := .nextMonth .epoch

/-- Counters of February that took what moved in January. -/
def late : Usage :=
  (Touch.add .deposit fifty .epoch).run
    ((Touch.add .deposit fifty february).run (.start (.ofNat 1) .epoch))

theorem late_reached : late.Reached := by
  refine .touch (.touch (.start _ _) _ ?_) _ ?_
  · exact ⟨Decimal.zero_addsExactly _, Decimal.zero_addsExactly _⟩
  · have hexact : fifty.value.AddsExactly fifty.value := by
      refine Decimal.addsExactly_of_representable ?_
      rw [← two_mul]
      exact ⟨{ fifty.value with magnitude := 100, magnitude_lt := by decide }, by decide +kernel⟩
    exact ⟨hexact, hexact⟩

theorem late_is_coherent :
    late.Reached ∧ late.deposit.daily.used = late.deposit.monthly.used ∧
      late.deposit.daily.resetAt ≤ late.deposit.monthly.resetAt ∧
      Meter.Turns (.roll february.nextMidnight) .deposit late.deposit
        (late.roll february.nextMidnight).deposit ∧
      (late.roll .epoch).expired .epoch = false := by
  obtain ⟨-, hdays, hturns, hrolled⟩ := coherent_under_any_clock late_reached
  exact ⟨late_reached, by decide, (hdays .deposit).2, hturns (.roll _) .deposit trivial,
    (hrolled .epoch (by decide)).2.1⟩

end Touch.Sample

end Causeway.Quota
