import Causeway.Proofs.Decimal.Rounding
import Causeway.Proofs.Quota.Gate

/-!
# The decision and the reported limits

The gate holds a sum against a cap, and the limits of a user report what a counter leaves of one.
`verdict` decides by the report alone. Where no sum and no difference is rounded, the gate decides
in the same way (`evaluate_eq_verdict`), so that the report tells which amounts pass
(`decision_follows_report`).
-/

namespace Causeway.Quota

variable {tier : Tier} {usage : Usage} {flow : Flow} {amount cap : Decimal} {caps : Caps}
  {m : Meter} {c : Counter} {p : Period} {limits : FlowLimits} {l : PeriodLimit}

def FlowLimits.during (l : FlowLimits) : Period → PeriodLimit
  | .daily => l.daily
  | .monthly => l.monthly

def UserLimits.on (l : UserLimits) : Flow → FlowLimits
  | .deposit => l.deposit
  | .withdrawal => l.withdrawal

/-- The period with less left, the day if both leave the same. -/
def FlowLimits.tighter (l : FlowLimits) : Period :=
  if l.monthly.remaining < l.daily.remaining then .monthly else .daily

/-- The check that carries what is reported of a period. -/
def FlowLimits.check (l : FlowLimits) (p : Period) (allowed : Bool) (reason : String) : Check :=
  { allowed
    reason
    used := (l.during p).used
    limit := (l.during p).limit
    remaining := (l.during p).remaining
    resetsAt := some (l.during p).resetsAt
    period := some p }

def FlowLimits.denial (l : FlowLimits) (flow : Flow) (p : Period) : Denial :=
  ⟨p.violation, l.check p false (p.name ++ " " ++ flow.name ++ " limit exceeded")⟩

/-- What the reported limits of a flow make of an amount. -/
def verdict (tier : Tier) (flow : Flow) (l : FlowLimits) (amount : Decimal) :
    Except Denial Check :=
  match checkMinimum tier flow amount with
  | .error d => .error d
  | .ok () =>
    if l.daily.remaining < amount then .error (l.denial flow .daily)
    else if l.monthly.remaining < amount then .error (l.denial flow .monthly)
    else .ok (l.check l.tighter true "")

/-! ## The report -/

theorem Counter.exists_limit (hcap : 0 ≤ cap.value) (hused : 0 ≤ c.used.value) :
    ∃ l, c.limit cap = .ok l := by
  obtain ⟨left, hleft⟩ := Decimal.exists_sub hcap hused
  exact ⟨_, by rw [limit, remaining, hleft]; rfl⟩

/-- A report of a flow is the report of both its periods. -/
theorem Meter.limits_eq_ok (h : m.limits caps = .ok limits) :
    limits.minimum = caps.minimum ∧
      ∀ p, (m.during p).limit (caps.during p) = .ok (limits.during p) := by
  unfold Meter.limits at h
  cases hdaily : m.daily.limit caps.daily with
  | error o => rw [hdaily] at h; cases h
  | ok daily =>
      rw [hdaily] at h
      cases hmonthly : m.monthly.limit caps.monthly with
      | error o => rw [hmonthly] at h; cases h
      | ok monthly =>
          rw [hmonthly] at h
          cases h
          refine ⟨rfl, fun p => ?_⟩
          cases p with
          | daily => exact hdaily
          | monthly => exact hmonthly

theorem Meter.exists_limits (hcap : ∀ p, 0 ≤ (caps.during p).value)
    (hused : ∀ p, 0 ≤ (m.during p).used.value) : ∃ limits, m.limits caps = .ok limits := by
  obtain ⟨daily, hdaily⟩ := Counter.exists_limit (hcap .daily) (hused .daily)
  obtain ⟨monthly, hmonthly⟩ := Counter.exists_limit (hcap .monthly) (hused .monthly)
  simp only [during, Caps.during] at hdaily hmonthly
  exact ⟨_, by rw [limits, hdaily, hmonthly]; rfl⟩

theorem caps_nonneg (tier : Tier) (flow : Flow) (p : Period) :
    0 ≤ ((tier.caps flow).during p).value := by
  rw [← Decimal.value_zero, ← Decimal.le_iff]
  cases tier <;> cases flow <;> cases p <;> decide

theorem Usage.exists_limits (tier : Tier)
    (hused : ∀ flow p, 0 ≤ ((usage.meter flow).during p).used.value) :
    ∃ limits, usage.limits tier = .ok limits ∧
      ∀ flow, (usage.meter flow).limits (tier.caps flow) = .ok (limits.on flow) := by
  obtain ⟨deposit, hd⟩ := Meter.exists_limits (caps_nonneg tier .deposit) (hused .deposit)
  obtain ⟨withdrawal, hw⟩ := Meter.exists_limits (caps_nonneg tier .withdrawal) (hused .withdrawal)
  refine ⟨⟨tier, deposit, withdrawal⟩, ?_, fun flow => ?_⟩
  · simp only [meter] at hd hw
    rw [limits, hd, hw]
    rfl
  · cases flow with
    | deposit => exact hd
    | withdrawal => exact hw

/-! ## The decision -/

/-- Neither the sum with an amount nor what is left below a cap is rounded. -/
structure Counter.Exact (c : Counter) (cap amount : Decimal) : Prop where
  sum : Decimal.Representable (c.used.value + amount.value)
  left : Decimal.Representable (cap.value - c.used.value)

theorem Counter.Exact.remaining_eq (h : c.Exact cap amount) (hl : c.limit cap = .ok l) :
    l.remaining.value = max 0 (cap.value - c.used.value) := by
  obtain ⟨left, hleft, hvalue⟩ := Decimal.sub_of_representable h.left
  rw [limit, remaining, hleft] at hl
  cases hl
  exact (Decimal.value_clampNegative left).trans (by rw [hvalue])

theorem Meter.report_eq (h : ∀ p, (m.during p).limit (caps.during p) = .ok (limits.during p))
    (p : Period) (allowed : Bool) (reason : String) :
    m.report caps p allowed reason = .ok (limits.check p allowed reason) := by
  have hp := h p
  unfold Counter.limit at hp
  unfold Meter.report
  cases hr : (m.during p).remaining (caps.during p) with
  | error o => rw [hr] at hp; cases hp
  | ok left =>
      rw [hr] at hp
      have hp : limits.during p = _ := (Except.ok.inj hp).symm
      unfold FlowLimits.check
      rw [hp]
      rfl

/-- The sum goes beyond the cap exactly if the amount is more than what is reported as left. -/
theorem Meter.checkCap_eq (h : ∀ p, (m.during p).limit (caps.during p) = .ok (limits.during p))
    (hexact : (m.during p).Exact (caps.during p) amount) (hpos : 0 < amount.value) (flow : Flow) :
    m.checkCap caps flow amount p =
      .ok (if (limits.during p).remaining < amount then .error (limits.denial flow p)
        else .ok ()) := by
  obtain ⟨total, htotal, hvalue⟩ := Decimal.addsExactly_of_representable hexact.sum
  have hiff : caps.during p < total ↔ (limits.during p).remaining < amount := by
    rw [Decimal.lt_iff, Decimal.lt_iff, hvalue, hexact.remaining_eq (h p), max_lt_iff,
      sub_lt_iff_lt_add']
    exact (and_iff_right hpos).symm
  unfold checkCap
  rw [htotal]
  simp only [bind, Except.bind, hiff, report_eq h]
  split <;> rfl

theorem minimum_pos (tier : Tier) (flow : Flow) : 0 < (tier.caps flow).minimum.value := by
  rw [← Decimal.value_zero, ← Decimal.lt_iff]
  cases tier <;> cases flow <;> decide

theorem evaluate_eq_verdict (h : (usage.meter flow).limits (tier.caps flow) = .ok limits)
    (hexact : ∀ p, ((usage.meter flow).during p).Exact ((tier.caps flow).during p) amount) :
    evaluate tier usage flow amount = .ok (verdict tier flow limits amount) := by
  have hlimits := (Meter.limits_eq_ok h).2
  unfold evaluate verdict
  cases hminimum : checkMinimum tier flow amount with
  | error d => rfl
  | ok _ =>
      have hpos : 0 < amount.value :=
        (minimum_pos tier flow).trans_le (Decimal.le_iff.mp (checkMinimum_eq_ok hminimum))
      have hcheck := fun p => Meter.checkCap_eq hlimits (hexact p) hpos flow
      simp only [hcheck, Meter.report_eq hlimits]
      by_cases hdaily : limits.daily.remaining < amount
      · simp only [FlowLimits.during, hdaily, if_true]
        rfl
      · by_cases hmonthly : limits.monthly.remaining < amount
        · simp only [FlowLimits.during, hdaily, hmonthly, if_false, if_true]
          rfl
        · simp only [FlowLimits.during, hdaily, hmonthly, if_false]
          unfold FlowLimits.tighter
          by_cases htighter : limits.monthly.remaining < limits.daily.remaining
          · rw [if_pos htighter]
            exact congrArg (Except.ok ∘ Except.ok) (if_pos htighter)
          · rw [if_neg htighter]
            exact congrArg (Except.ok ∘ Except.ok) (if_neg htighter)

/-! ## What the verdict says -/

/-- A decision on an amount tells nothing but what the reported limits of the flow tell. -/
structure Follows (limits : FlowLimits) (flow : Flow) (amount : Decimal)
    (v : Except Denial Check) : Prop where
  passes : (∃ check, v = .ok check) ↔ limits.minimum ≤ amount ∧
    amount.value ≤ min limits.daily.remaining.value limits.monthly.remaining.value
  capacity : ∀ check, v = .ok check →
    check.remaining.value = min limits.daily.remaining.value limits.monthly.remaining.value
  tighter : ∀ check, v = .ok check → check = limits.check limits.tighter true ""
  belowMinimum : ∀ d, v = .error d → (d.violation = .belowMinimum ↔ amount < limits.minimum)
  overDaily : ∀ d, v = .error d → limits.minimum ≤ amount →
    (d.violation = .overDaily ↔ limits.daily.remaining < amount)
  overMonthly : ∀ d, v = .error d → limits.minimum ≤ amount → amount ≤ limits.daily.remaining →
    d.violation = .overMonthly
  denial : ∀ d p, v = .error d → d.violation = p.violation → d = limits.denial flow p

theorem checkMinimum_cases (tier : Tier) (flow : Flow) (amount : Decimal) :
    (tier.caps flow).minimum ≤ amount ∧ checkMinimum tier flow amount = .ok () ∨
      amount < (tier.caps flow).minimum ∧
        ∃ d, checkMinimum tier flow amount = .error d ∧ d.violation = .belowMinimum := by
  unfold checkMinimum
  by_cases h : (tier.caps flow).minimum ≤ amount
  · exact .inl ⟨h, if_pos h⟩
  · exact .inr ⟨Int.not_le.mp h, _, if_neg h, rfl⟩

theorem tighter_remaining (l : FlowLimits) :
    (l.during l.tighter).remaining.value =
      min l.daily.remaining.value l.monthly.remaining.value := by
  unfold FlowLimits.tighter
  split
  · rename_i h
    exact (min_eq_right (Decimal.lt_iff.mp h).le).symm
  · rename_i h
    rw [Decimal.lt_iff, not_lt] at h
    exact (min_eq_left h).symm

theorem le_min_remaining_iff : amount.value ≤
      min limits.daily.remaining.value limits.monthly.remaining.value ↔
    ¬ limits.daily.remaining < amount ∧ ¬ limits.monthly.remaining < amount := by
  rw [le_min_iff, Decimal.lt_iff, Decimal.lt_iff, not_lt, not_lt]

namespace Follows

theorem of_ok (hminimum : limits.minimum ≤ amount) (hdaily : ¬ limits.daily.remaining < amount)
    (hmonthly : ¬ limits.monthly.remaining < amount) :
    Follows limits flow amount (.ok (limits.check limits.tighter true "")) where
  passes := ⟨fun _ => ⟨hminimum, le_min_remaining_iff.mpr ⟨hdaily, hmonthly⟩⟩, fun _ => ⟨_, rfl⟩⟩
  capacity := by
    rintro check hcheck
    cases hcheck
    exact tighter_remaining limits
  tighter := fun _ hcheck => (Except.ok.inj hcheck).symm
  belowMinimum := fun _ h => nomatch h
  overDaily := fun _ h => nomatch h
  overMonthly := fun _ h => nomatch h
  denial := fun _ _ h => nomatch h

theorem of_belowMinimum {d : Denial} (hlt : amount < limits.minimum)
    (hd : d.violation = .belowMinimum) : Follows limits flow amount (.error d) := by
  have hnot : ¬ limits.minimum ≤ amount := Int.not_le.mpr hlt
  refine
    { passes := ⟨fun ⟨_, h⟩ => (nomatch h), fun h => absurd h.1 hnot⟩
      capacity := fun _ h => nomatch h
      tighter := fun _ h => nomatch h
      belowMinimum := ?_
      overDaily := fun _ _ h => absurd h hnot
      overMonthly := fun _ _ h => absurd h hnot
      denial := ?_ }
  · rintro _ h
    cases h
    exact iff_of_true hd hlt
  · rintro _ p h hp
    cases h
    rw [hd] at hp
    cases p <;> cases hp

theorem of_denial (hminimum : limits.minimum ≤ amount) (p : Period)
    (hover : (limits.during p).remaining < amount)
    (hfirst : p = .daily ∨ ¬ limits.daily.remaining < amount) :
    Follows limits flow amount (.error (limits.denial flow p)) := by
  refine
    { passes := ⟨fun ⟨_, h⟩ => (nomatch h), fun h => ?_⟩
      capacity := fun _ h => nomatch h
      tighter := fun _ h => nomatch h
      belowMinimum := ?_
      overDaily := ?_
      overMonthly := ?_
      denial := ?_ }
  · have hfits := le_min_remaining_iff.mp h.2
    cases p with
    | daily => exact absurd hover hfits.1
    | monthly => exact absurd hover hfits.2
  · rintro _ h
    cases h
    refine iff_of_false ?_ (Int.not_lt.mpr hminimum)
    cases p <;> exact nofun
  · rintro _ h -
    cases h
    cases p with
    | daily => exact iff_of_true rfl hover
    | monthly => exact iff_of_false nofun (hfirst.resolve_left nofun)
  · rintro _ h - hle
    cases h
    cases p with
    | daily => exact absurd hover (Int.not_lt.mpr hle)
    | monthly => rfl
  · rintro _ q h hq
    cases h
    cases p <;> cases q <;> first | rfl | cases hq

end Follows

theorem verdict_follows (hminimum : limits.minimum = (tier.caps flow).minimum) :
    Follows limits flow amount (verdict tier flow limits amount) := by
  rcases checkMinimum_cases tier flow amount with ⟨hle, hok⟩ | ⟨hlt, d, herror, hviolation⟩
  · rw [← hminimum] at hle
    simp only [verdict, hok]
    by_cases hdaily : limits.daily.remaining < amount
    · rw [if_pos hdaily]
      exact .of_denial hle .daily hdaily (.inl rfl)
    · rw [if_neg hdaily]
      by_cases hmonthly : limits.monthly.remaining < amount
      · rw [if_pos hmonthly]
        exact .of_denial hle .monthly hmonthly (.inr hdaily)
      · rw [if_neg hmonthly]
        exact .of_ok hle hdaily hmonthly
  · rw [← hminimum] at hlt
    simp only [verdict, herror]
    exact .of_belowMinimum hlt hviolation

/-- The gate decides on an amount exactly as the limits reported to the user say. -/
theorem decision_follows_report
    (hused : ∀ flow p, 0 ≤ ((usage.meter flow).during p).used.value)
    (hexact : ∀ p, ((usage.meter flow).during p).Exact ((tier.caps flow).during p) amount) :
    ∃ limits v, usage.limits tier = .ok limits ∧ evaluate tier usage flow amount = .ok v ∧
      Follows (limits.on flow) flow amount v := by
  obtain ⟨limits, hreport, hlimits⟩ := Usage.exists_limits tier hused
  exact ⟨limits, _, hreport, evaluate_eq_verdict (hlimits flow) hexact,
    verdict_follows (Meter.limits_eq_ok (hlimits flow)).1⟩

/-- A user whose counters are beyond the caps of a lower tier. -/
def downgraded : Usage :=
  let daily := Counter.start .daily .epoch
  let monthly := Counter.start .monthly .epoch
  let used : Decimal := { Decimal.zero with magnitude := 450, magnitude_lt := by decide }
  { Usage.start default .epoch with deposit := ⟨{ daily with used }, { monthly with used }⟩ }

def sixty : Decimal := { Decimal.zero with magnitude := 60, magnitude_lt := by decide }

theorem downgraded_follows_report :
    (∀ flow p, 0 ≤ ((downgraded.meter flow).during p).used.value) ∧
      (∀ p, ((downgraded.meter .deposit).during p).Exact
        ((Tier.unverified.caps .deposit).during p) sixty) ∧
      ∃ limits v, downgraded.limits .unverified = .ok limits ∧
        evaluate .unverified downgraded .deposit sixty = .ok v ∧
        Follows (limits.on .deposit) .deposit sixty v := by
  have hused : ∀ flow p, 0 ≤ ((downgraded.meter flow).during p).used.value := by
    intro flow p
    rw [← Decimal.value_zero, ← Decimal.le_iff]
    cases flow <;> cases p <;> decide
  have hexact : ∀ p, ((downgraded.meter .deposit).during p).Exact
      ((Tier.unverified.caps .deposit).during p) sixty := by
    intro p
    cases p with
    | daily =>
        exact ⟨⟨{ magnitude := 510, places := 0 }, by decide +kernel⟩,
          ⟨{ magnitude := 350, places := 0, negative := true }, by decide +kernel⟩⟩
    | monthly =>
        exact ⟨⟨{ magnitude := 510, places := 0 }, by decide +kernel⟩,
          ⟨{ magnitude := 50, places := 0 }, by decide +kernel⟩⟩
  exact ⟨hused, hexact, decision_follows_report hused hexact⟩

end Causeway.Quota
