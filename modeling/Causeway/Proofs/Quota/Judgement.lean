import Causeway.Proofs.Decimal.Sums
import Causeway.Proofs.Quota.Decision
import Causeway.Proofs.Quota.Looking
import Causeway.Proofs.Store.Tally

/-!
# What the gate answers

The gate forms the sum of what a counter holds and the amount before it compares the sum with the
cap. Nothing else that it computes can overflow (`evaluate_judged`). So it answers as it should
unless a sum that it needs is beyond the range of decimals, or is rounded down to a cap that it
exceeds (`gate_answers_iff`).
-/

namespace Causeway

namespace Quota

variable {m : Meter} {c : Counter} {caps : Caps} {cap amount : Decimal} {now : Instant}
  {p : Period} {tier : Tier} {usage : Usage} {flow : Flow}

/-! ## Counters that are not negative -/

def Meter.Nonneg (m : Meter) : Prop := ∀ p, 0 ≤ (m.during p).used.value

/-- A roll starts a counter anew or leaves it as it is. -/
theorem Meter.used_roll (m : Meter) (now : Instant) (p : Period) :
    ((m.roll now).during p).used = .zero ∨
      ((m.roll now).during p).used = (m.during p).used := by
  cases p <;> simp only [roll, during, Counter.roll] <;> split <;> simp [Counter.start]

theorem Meter.used_start (now : Instant) (p : Period) :
    ((Meter.start now).during p).used = .zero := by
  cases p <;> rfl

namespace Meter.Nonneg

theorem start (now : Instant) : (Meter.start now).Nonneg := by
  intro p
  rw [used_start, Decimal.value_zero]

theorem roll (h : m.Nonneg) (now : Instant) : (m.roll now).Nonneg := by
  intro p
  rcases m.used_roll now p with hzero | hkept
  · rw [hzero, Decimal.value_zero]
  · rw [hkept]
    exact h p

/-- Also where a sum overflows. -/
theorem add (h : m.Nonneg) (ha : 0 ≤ amount.value) : (m.add amount).1.Nonneg := by
  intro p
  unfold Meter.add
  cases hdaily : m.daily.used.add amount with
  | error o => exact h p
  | ok daily =>
      have hd := Decimal.add_nonneg_of_ok (h .daily) ha hdaily
      dsimp only
      cases hmonthly : m.monthly.used.add amount with
      | error o =>
          cases p with
          | daily => exact hd
          | monthly => exact h .monthly
      | ok monthly =>
          cases p with
          | daily => exact hd
          | monthly => exact Decimal.add_nonneg_of_ok (h .monthly) ha hmonthly

end Meter.Nonneg

theorem Usage.nonneg_add (h : ∀ flow, (usage.meter flow).Nonneg) (ha : 0 ≤ amount.value)
    (flow flow' : Flow) (now : Instant) : ((usage.add flow amount now).1.meter flow').Nonneg := by
  by_cases hflow : flow' = flow
  · subst hflow
    rw [meter_add_self]
    exact ((h flow').roll now).add ha
  · rw [meter_add_of_ne hflow]
    exact (h flow').roll now

end Quota

namespace Store.Usages

open Quota

variable {s : Usages} {u : Usage} {user : Uuid} {amount : Decimal} {now : Instant}

/-- No counter is negative, whenever those that are missing are begun. -/
def Nonneg (s : Usages) : Prop := ∀ user now flow, ((s.entry user now).meter flow).Nonneg

theorem pos_of_not_le_zero (ha : ¬ amount ≤ .zero) : 0 < amount.value := by
  rwa [Decimal.le_iff, Decimal.value_zero, not_le] at ha

namespace Nonneg

theorem put (h : s.Nonneg) (hu : ∀ flow, (u.meter flow).Nonneg) (user : Uuid) :
    (s.put u user).Nonneg := by
  intro user' now flow
  by_cases heq : user = user'
  · rw [heq, entry_put_self]
    exact hu flow
  · rw [entry_put_of_ne s u heq]
    exact h user' now flow

theorem perform (h : s.Nonneg) (c : Call) (now : Instant) : (c.perform now s).2.Nonneg := by
  cases c with
  | increment user flow amount =>
      by_cases ha : amount ≤ .zero
      · simp only [Call.perform, increment, if_pos ha]
        exact h
      · simp only [Call.perform, increment_of_pos s user flow ha now]
        exact h.put (fun flow' => Usage.nonneg_add (h user now) (pos_of_not_le_zero ha).le
          flow flow' now) user
  | apply user deposit amount =>
      rw [Call.perform]
      rcases apply_cases s user deposit amount now with ⟨-, he⟩ | ⟨-, he⟩ | ⟨ha, -, he, -⟩
      · rw [he]
        exact h
      · rw [he]
        exact h
      · rw [he]
        exact h.put (fun flow' => Usage.nonneg_add (h user now) (pos_of_not_le_zero ha).le
          .deposit flow' now) user
  | getOrCreate user => exact h.put (h user now) user
  | reset user =>
      refine h.put (fun flow => ?_) user
      rw [Usage.meter_roll]
      exact (h user now flow).roll now

theorem of_history (past : History) : past.store.Nonneg := by
  induction past with
  | nil =>
      intro user now flow
      rw [entry, show (History.store []).byUser.get? user = none from rfl, Option.getD_none,
        Usage.meter_start]
      exact .start now
  | cons x past ih => exact ih.perform x.2 x.1

end Nonneg

end Store.Usages

namespace Quota

variable {m : Meter} {c : Counter} {caps : Caps} {cap amount : Decimal} {now : Instant}
  {p : Period} {tier : Tier} {usage : Usage} {flow : Flow}

/-! ## Sums that the gate forms -/

/-- The sum is beyond the range of decimals. -/
def Counter.Overflows (c : Counter) (amount : Decimal) : Prop :=
  Decimal.overflowAt ≤ c.used.value + amount.value

/-- The sum, rounded if it has to be, does not exceed the cap. -/
def Counter.Takes (c : Counter) (cap amount : Decimal) : Prop :=
  ∃ total, c.used.add amount = .ok total ∧ total ≤ cap

/-- The sum of the day overflows, or that of the day does not exceed its cap and that of the month
overflows. -/
def Meter.Overruns (m : Meter) (caps : Caps) (amount : Decimal) : Prop :=
  m.daily.Overflows amount ∨ m.daily.Takes caps.daily amount ∧ m.monthly.Overflows amount

/-- Both counters have room for the amount. -/
def Meter.Takes (m : Meter) (caps : Caps) (amount : Decimal) : Prop :=
  ∀ p, (m.during p).Takes (caps.during p) amount

/-- What is left below both caps. -/
def Meter.capacity (m : Meter) (caps : Caps) : ℚ :=
  max 0 (min (caps.daily.value - m.daily.used.value) (caps.monthly.value - m.monthly.used.value))

section Sums

variable (hm : m.Nonneg) (hcaps : ∀ p, 0 ≤ (caps.during p).value) (ha : 0 ≤ amount.value)

include hm hcaps

/-- Whatever is reported of a counter can be reported. -/
theorem Meter.exists_report (p : Period) (allowed : Bool) (reason : String) :
    ∃ check, m.report caps p allowed reason = .ok check := by
  obtain ⟨limits, hlimits⟩ := Meter.exists_limits hcaps hm
  exact ⟨_, Meter.report_eq (Meter.limits_eq_ok hlimits).2 p allowed reason⟩

include ha

/-- The sum cannot be formed, or does not exceed the cap, or is refused. -/
theorem Meter.checkCap_cases (flow : Flow) (p : Period) :
    (m.during p).Overflows amount ∧ m.checkCap caps flow amount p = .error .addition ∨
      ¬ (m.during p).Overflows amount ∧
        ((m.during p).Takes (caps.during p) amount ∧
            m.checkCap caps flow amount p = .ok (.ok ()) ∨
          ¬ (m.during p).Takes (caps.during p) amount ∧
            ∃ d, d.violation = p.violation ∧ m.checkCap caps flow amount p = .ok (.error d)) := by
  have hiff := Decimal.add_eq_error_iff (hm p) ha
  unfold checkCap
  rcases Decimal.add_cases (m.during p).used amount with hadd | ⟨total, hadd⟩
  · rw [hadd]
    exact .inl ⟨hiff.mp hadd, rfl⟩
  · rw [hadd]
    refine .inr ⟨fun h => ?_, ?_⟩
    · cases hadd.symm.trans (hiff.mpr h)
    · simp only [bind, Except.bind]
      by_cases hlt : caps.during p < total
      · obtain ⟨check, hreport⟩ := m.exists_report hm hcaps p false
          (p.name ++ " " ++ flow.name ++ " limit exceeded")
        rw [if_pos hlt, hreport]
        refine .inr ⟨?_, ⟨p.violation, check⟩, rfl, rfl⟩
        rintro ⟨total', hadd', hle⟩
        cases hadd.symm.trans hadd'
        exact absurd hle (Int.not_le.mpr hlt)
      · rw [if_neg hlt]
        exact .inl ⟨⟨total, hadd, Int.not_lt.mp hlt⟩, rfl⟩

end Sums

/-! ## The decision -/

/-- Every way a decision can end. -/
inductive Judged (caps : Caps) (m : Meter) (amount : Decimal) :
    Except Overflow (Except Denial Check) → Prop where
  | below {d : Denial} (hlt : amount < caps.minimum) (hd : d.violation = .belowMinimum) :
    Judged caps m amount (.ok (.error d))
  | overrun (hle : caps.minimum ≤ amount) (h : m.Overruns caps amount) :
    Judged caps m amount (.error .addition)
  | refused {d : Denial} (hle : caps.minimum ≤ amount) (hnot : ¬ m.Overruns caps amount)
    (htakes : ¬ m.Takes caps amount) (p : Period) (hd : d.violation = p.violation) :
    Judged caps m amount (.ok (.error d))
  | passed {check : Check} (hle : caps.minimum ≤ amount) (hnot : ¬ m.Overruns caps amount)
    (htakes : m.Takes caps amount) : Judged caps m amount (.ok (.ok check))

theorem evaluate_judged (hm : (usage.meter flow).Nonneg) (tier : Tier) (amount : Decimal) :
    Judged (tier.caps flow) (usage.meter flow) amount (evaluate tier usage flow amount) := by
  unfold evaluate
  rcases checkMinimum_cases tier flow amount with ⟨hle, hok⟩ | ⟨hlt, d, herror, hviolation⟩
  · have hcaps := caps_nonneg tier flow
    have ha : 0 ≤ amount.value := (minimum_pos tier flow).le.trans (Decimal.le_iff.mp hle)
    simp only [hok]
    rcases Meter.checkCap_cases hm hcaps ha flow .daily with
      ⟨hover, hd⟩ | ⟨hday, ⟨hdtakes, hd⟩ | ⟨hdtakes, d, hviolation, hd⟩⟩
    · rw [hd]
      exact .overrun hle (.inl hover)
    · rw [hd]
      simp only [bind, Except.bind]
      rcases Meter.checkCap_cases hm hcaps ha flow .monthly with
        ⟨hover, hmo⟩ | ⟨hmonth, ⟨hmtakes, hmo⟩ | ⟨hmtakes, d, hviolation, hmo⟩⟩
      · rw [hmo]
        exact .overrun hle (.inr ⟨hdtakes, hover⟩)
      · obtain ⟨daily, hdaily⟩ := Meter.exists_report hm hcaps .daily true ""
        obtain ⟨monthly, hmonthly⟩ := Meter.exists_report hm hcaps .monthly true ""
        rw [hmo, hdaily, hmonthly]
        refine .passed hle ?_ fun p => ?_
        · rintro (hover | ⟨-, hover⟩)
          · exact hday hover
          · exact hmonth hover
        · cases p with
          | daily => exact hdtakes
          | monthly => exact hmtakes
      · rw [hmo]
        refine .refused hle ?_ (fun h => hmtakes (h .monthly)) .monthly hviolation
        rintro (hover | ⟨-, hover⟩)
        · exact hday hover
        · exact hmonth hover
    · rw [hd]
      refine .refused hle ?_ (fun h => hdtakes (h .daily)) .daily hviolation
      rintro (hover | ⟨htakes, -⟩)
      · exact hday hover
      · exact hdtakes htakes
  · simp only [herror]
    exact .below hlt hviolation

/-! ## The answer -/

/-- The amount passes or is refused for a limit, and an amount that reaches the minimum and is more
than what is left below both caps is refused for the cap of a period. -/
structure Answers (caps : Caps) (m : Meter) (amount : Decimal)
    (r : Except Overflow (Except Failure Check)) : Prop where
  answered : (∃ check, r = .ok (.ok check)) ∨ ∃ d, r = .ok (.error (.overLimit d))
  refused : caps.minimum ≤ amount → m.capacity caps < amount.value →
    ∃ d, r = .ok (.error (.overLimit d)) ∧ ∃ p : Period, d.violation = p.violation

/-- Where the decision is wrong: a sum that it needs cannot be formed, or does not exceed its cap
only because it is rounded. -/
theorem Judged.answers_iff {v : Except Overflow (Except Denial Check)}
    (h : Judged caps m amount v) :
    Answers caps m amount (v.map (·.mapError .overLimit)) ↔ amount < caps.minimum ∨
      ¬ m.Overruns caps amount ∧ (m.Takes caps amount → amount.value ≤ m.capacity caps) := by
  cases h with
  | @below d hlt hd =>
      refine iff_of_true ⟨.inr ⟨d, rfl⟩, fun hle => ?_⟩ (.inl hlt)
      exact absurd hlt (Int.not_lt.mpr hle)
  | overrun hle hover =>
      refine iff_of_false (fun h => ?_) ?_
      · rcases h.answered with ⟨check, hr⟩ | ⟨d, hr⟩ <;> cases hr
      · rintro (hlt | ⟨hnot, -⟩)
        · exact absurd hlt (Int.not_lt.mpr hle)
        · exact hnot hover
  | @refused d hle hnot htakes p hd =>
      refine iff_of_true ⟨.inr ⟨d, rfl⟩, fun _ _ => ⟨d, rfl, p, hd⟩⟩ (.inr ⟨hnot, fun h => ?_⟩)
      exact absurd h htakes
  | @passed check hle hnot htakes =>
      constructor
      · intro h
        refine .inr ⟨hnot, fun _ => not_lt.mp fun hlt => ?_⟩
        obtain ⟨d, hr, -⟩ := h.refused hle hlt
        cases hr
      · rintro (hlt | ⟨-, hfits⟩)
        · exact absurd hlt (Int.not_lt.mpr hle)
        · exact ⟨.inl ⟨check, rfl⟩, fun _ hlt => absurd (hfits htakes) (not_le.mpr hlt)⟩

/-- The caps leave room for 23 places. -/
theorem caps_small (tier : Tier) (flow : Flow) (p : Period) :
    10 * (((tier.caps flow).during p).value * tenTo 22) < twoTo 96 := by
  have hlt : (tier.caps flow).during p <
      { Decimal.zero with magnitude := 792281, magnitude_lt := by decide } := by
    cases tier <;> cases flow <;> cases p <;> decide
  rw [Decimal.lt_iff] at hlt
  have hvalue : Decimal.value
      { Decimal.zero with magnitude := 792281, magnitude_lt := by decide } = 792281 := by
    simp [Decimal.value, Decimal.coefficient, Decimal.signed, Decimal.zero]
  have hroom : (792281 : ℚ) * tenTo 23 ≤ twoTo 96 := by
    exact_mod_cast (by decide : 792281 * tenTo 23 ≤ twoTo 96)
  have hten : (tenTo 23 : ℚ) = tenTo 22 * 10 := by
    exact_mod_cast tenTo_succ 22
  have hpos := Decimal.tenTo_cast_pos 22
  rw [hvalue] at hlt
  nlinarith

/-- Sums that do not exceed the caps leave the capacity no less than the amount, but for half a unit
of the 23rd place. -/
theorem Meter.Takes.le_capacity (h : m.Takes (tier.caps flow) amount) (hm : m.Nonneg)
    (ha : 0 ≤ amount.value) :
    amount.value ≤ m.capacity (tier.caps flow) + 1 / 2 / tenTo 23 := by
  have hperiod (p : Period) : amount.value - 1 / 2 / tenTo 23 ≤
      ((tier.caps flow).during p).value - (m.during p).used.value := by
    obtain ⟨total, hadd, hle⟩ := h p
    rw [Decimal.le_iff] at hle
    have hten := Decimal.tenTo_cast_pos 22
    have hsmall := caps_small tier flow p
    have hnear := Decimal.add_le_of_small (k := 22) (hm p) ha hadd (by nlinarith)
    linarith
  have hmin := le_min (hperiod .daily) (hperiod .monthly)
  exact sub_le_iff_le_add.mp (hmin.trans (le_max_right 0 _))

/-! ## The gate -/

variable {w : World} {user : Uuid} {u : User} {past : Store.Usages.History}

theorem run_validate (hw : w.script.Faultless) (hu : w.users.get? user = some u) (flow : Flow)
    (amount : Decimal) :
    (w.run (validate flow user amount).run).1 =
      (evaluate u.tier (w.usages.reset user (w.clock w.readings)).1 flow amount).map
        (·.mapError .overLimit) := by
  rw [validate, World.run_seq (run_tierOf hu)]
  cases hminimum : checkMinimum u.tier flow amount with
  | error d =>
      simp only [evaluate, hminimum]
      rfl
  | ok _ =>
      have hpassed : w.run (ofVerdict (.ok ()) : Action Unit).run = (.ok (.ok ()), w) := rfl
      rw [World.run_seq hpassed, World.run_seq (run_current hw user)]
      rcases evaluate u.tier (w.usages.reset user (w.clock w.readings)).1 flow amount with
        _ | _ | _ <;> rfl

/-- Whatever has been recorded, the gate answers as it should exactly if the amount does not reach
the minimum, or if no sum that is needed overflows and the amount is not let through by a sum that
has been rounded down to a cap. What is let through exceeds the capacity by half a unit of the 23rd
place at most. -/
theorem gate_answers_iff (hw : w.script.Faultless) (hu : w.users.get? user = some u)
    (hs : w.usages = past.store) (flow : Flow) (amount : Decimal) :
    let caps := u.tier.caps flow
    let m := w.usages.rolled user flow (w.clock w.readings)
    (Answers caps m amount (w.run (validate flow user amount).run).1 ↔ amount < caps.minimum ∨
      ¬ m.Overruns caps amount ∧ (m.Takes caps amount → amount.value ≤ m.capacity caps)) ∧
      (caps.minimum ≤ amount → m.Takes caps amount →
        amount.value ≤ m.capacity caps + 1 / 2 / tenTo 23) := by
  have hm : (w.usages.rolled user flow (w.clock w.readings)).Nonneg := by
    rw [hs]
    exact (Store.Usages.Nonneg.of_history past user _ flow).roll _
  have hmeter : (w.usages.reset user (w.clock w.readings)).1.meter flow =
      w.usages.rolled user flow (w.clock w.readings) := Usage.meter_roll ..
  constructor
  · rw [run_validate hw hu, ← hmeter]
    exact (evaluate_judged (hmeter ▸ hm) u.tier amount).answers_iff
  · intro hle htakes
    exact htakes.le_capacity hm ((minimum_pos u.tier flow).le.trans (Decimal.le_iff.mp hle))

namespace Sample

def recorded : Store.Usages.History := [(.epoch, .increment holder.id .deposit .one)]

/-- The holder has moved one unit. -/
def opened : World := { world with usages := recorded.store }

/-- As much as the holder may move in a day. -/
def dailyCap : Amount := ⟨(Tier.basic.caps .deposit).daily, by decide⟩

/-- What the gate finds counted of the holder's deposits. -/
abbrev counted : Meter := opened.usages.rolled holder.id .deposit .epoch

theorem used_counted (p : Period) : (counted.during p).used = .one := by
  cases p <;> rfl

theorem capacity_counted : counted.capacity (holder.tier.caps .deposit) = 4999 := by
  have htier : holder.tier = .basic := by decide
  have hdaily := used_counted .daily
  have hmonthly := used_counted .monthly
  simp only [Meter.during] at hdaily hmonthly
  rw [Meter.capacity, hdaily, hmonthly, htier]
  norm_num [Tier.caps, Decimal.value, Decimal.coefficient, Decimal.signed, Decimal.one,
    show tenTo 2 = 100 by decide]

/-- One and the amount are a sum that can be formed. -/
theorem not_overruns_counted {a : Amount} {total : Decimal}
    (h : Decimal.one.add a.value = .ok total) (caps : Caps) : ¬ counted.Overruns caps a.value := by
  have hone : 0 ≤ Decimal.one.value := (Store.Usages.pos_of_not_le_zero (by decide)).le
  have ha : 0 ≤ a.value.value := (Store.Usages.pos_of_not_le_zero (Decimal.not_le_zero a)).le
  have hfits : ∀ p, ¬ (counted.during p).Overflows a.value := by
    intro p hover
    rw [Counter.Overflows, used_counted, ← Decimal.add_eq_error_iff hone ha, h] at hover
    cases hover
  rintro (hover | ⟨-, hover⟩)
  · exact hfits .daily hover
  · exact hfits .monthly hover

/-- Forty pass, and a whole day's cap is refused. -/
theorem opened_is_answered :
    opened.script.Faultless ∧ opened.users.get? holder.id = some holder ∧
      opened.usages = recorded.store ∧
      let caps := holder.tier.caps .deposit
      (Answers caps counted forty.value
          (opened.run (validate .deposit holder.id forty.value).run).1 ∧
        counted.Takes caps forty.value ∧
        forty.value.value ≤ counted.capacity caps + 1 / 2 / tenTo 23) ∧
      Answers caps counted dailyCap.value
        (opened.run (validate .deposit holder.id dailyCap.value).run).1 ∧
      ∃ d, (opened.run (validate .deposit holder.id dailyCap.value).run).1 =
        .ok (.error (.overLimit d)) ∧ ∃ p : Period, d.violation = p.violation := by
  have hw : opened.script.Faultless := ⟨rfl, rfl⟩
  have hu : opened.users.get? holder.id = some holder := Table.get?_insert_self ..
  have htakes : counted.Takes (holder.tier.caps .deposit) forty.value := by
    intro p
    cases p <;> exact ⟨_, rfl, by decide⟩
  have hroom : forty.value.value ≤ counted.capacity (holder.tier.caps .deposit) := by
    rw [capacity_counted]
    norm_num [forty, Decimal.value, Decimal.coefficient, Decimal.signed, Decimal.zero]
  have hexceeds : ¬ counted.Takes (holder.tier.caps .deposit) dailyCap.value := by
    intro h
    obtain ⟨total, hadd, hle⟩ := h .daily
    cases hadd
    exact absurd hle (by decide)
  have hbeyond : counted.capacity (holder.tier.caps .deposit) < dailyCap.value.value := by
    rw [capacity_counted]
    norm_num [dailyCap, Tier.caps, Decimal.value, Decimal.coefficient, Decimal.signed,
      show tenTo 2 = 100 by decide]
  obtain ⟨hiff, hnear⟩ := gate_answers_iff hw hu rfl .deposit forty.value
  have hpassed := hiff.mpr (.inr ⟨not_overruns_counted (a := forty) rfl _, fun _ => hroom⟩)
  obtain ⟨hiff', -⟩ := gate_answers_iff hw hu rfl .deposit dailyCap.value
  have hrefused := hiff'.mpr (.inr ⟨not_overruns_counted (a := dailyCap) rfl _, fun h =>
    absurd h hexceeds⟩)
  exact ⟨hw, hu, rfl, ⟨hpassed, htakes, hnear (by decide) htakes⟩, hrefused,
    hrefused.refused (by decide) hbeyond⟩

/-- The largest amount is far beyond what is left, and is not refused: one more does not fit a
decimal. -/
theorem largest_unanswered :
    opened.users.get? holder.id = some holder ∧
      (opened.run (validate .deposit holder.id .largest).run).1 = .error .addition ∧
      ¬ Answers (holder.tier.caps .deposit)
        (opened.usages.rolled holder.id .deposit .epoch) .largest
        (opened.run (validate .deposit holder.id .largest).run).1 := by
  have hrun : (opened.run (validate .deposit holder.id .largest).run).1 = .error .addition := rfl
  refine ⟨Table.get?_insert_self .., hrun, fun h => ?_⟩
  rw [hrun] at h
  rcases h.answered with ⟨check, hr⟩ | ⟨d, hr⟩ <;> cases hr

end Sample

end Quota

end Causeway
