import Causeway.Proofs.Store.Usages
import Causeway.Proofs.World.Plain
import Causeway.Quota.Gate

/-!
# What the gate lets through

An amount is admitted if it reaches the tier's minimum and neither counter goes beyond its cap by it
(`admitted_of_evaluate`). The decision counts nothing, but rolls the counters that it looks at
(`run_validate_cases`). What has been admitted can be counted (`Usages.apply_of_admitted`).
-/

namespace Causeway

namespace Quota

variable {tier : Tier} {usage : Usage} {flow : Flow} {amount : Decimal} {m : Meter} {caps : Caps}
  {p : Period} {check : Check} {now : Instant}

structure Admitted (tier : Tier) (usage : Usage) (flow : Flow) (amount : Decimal) : Prop where
  minimum : (tier.caps flow).minimum ≤ amount
  fits : ∀ p, ∃ total, ((usage.meter flow).during p).used.add amount = .ok total ∧
    total ≤ (tier.caps flow).during p

theorem checkMinimum_eq_ok (h : checkMinimum tier flow amount = .ok ()) :
    (tier.caps flow).minimum ≤ amount := by
  unfold checkMinimum at h
  by_cases hle : (tier.caps flow).minimum ≤ amount
  · exact hle
  · rw [if_neg hle] at h
    cases h

theorem Meter.checkCap_eq_ok (h : m.checkCap caps flow amount p = .ok (.ok ())) :
    ∃ total, (m.during p).used.add amount = .ok total ∧ total ≤ caps.during p := by
  unfold checkCap at h
  cases hadd : (m.during p).used.add amount with
  | error o => rw [hadd] at h; cases h
  | ok total =>
      rw [hadd] at h
      by_cases hlt : caps.during p < total
      · simp only [bind, Except.bind, hlt, if_true] at h
        cases hr : m.report caps p false (p.name ++ " " ++ flow.name ++ " limit exceeded") with
        | error o => rw [hr] at h; cases h
        | ok c => rw [hr] at h; cases h
      · exact ⟨total, rfl, Int.not_lt.mp hlt⟩

theorem admitted_of_evaluate (h : evaluate tier usage flow amount = .ok (.ok check)) :
    Admitted tier usage flow amount := by
  unfold evaluate at h
  dsimp only at h
  cases hminimum : checkMinimum tier flow amount with
  | error d => rw [hminimum] at h; cases h
  | ok u =>
      rw [hminimum] at h
      dsimp only at h
      cases hdaily : (usage.meter flow).checkCap (tier.caps flow) flow amount .daily with
      | error o => rw [hdaily] at h; cases h
      | ok r =>
          rw [hdaily] at h
          cases r with
          | error d => cases h
          | ok u =>
              cases hmonthly :
                  (usage.meter flow).checkCap (tier.caps flow) flow amount .monthly with
              | error o => simp only [bind, Except.bind, hmonthly] at h; cases h
              | ok r =>
                  cases r with
                  | error d => simp only [bind, Except.bind, hmonthly] at h; cases h
                  | ok u =>
                      refine ⟨checkMinimum_eq_ok hminimum, fun p => ?_⟩
                      cases p with
                      | daily => exact Meter.checkCap_eq_ok hdaily
                      | monthly => exact Meter.checkCap_eq_ok hmonthly

theorem one_le_minimum (tier : Tier) : .one ≤ (tier.caps .deposit).minimum := by
  cases tier <;> decide

theorem Admitted.large (h : Admitted tier usage .deposit amount) : .one ≤ amount := by
  have hone := one_le_minimum tier
  have hminimum := h.minimum
  rw [Decimal.le_iff] at hone hminimum ⊢
  exact hone.trans hminimum

/-! ## What can be counted -/

/-- Counters that the amount can be added to take it after a roll as well. -/
theorem Meter.add_roll_eq_none
    (h : ∀ p, ∃ total, (m.during p).used.add amount = .ok total) :
    ((m.roll now).add amount).2 = none := by
  have hroll : ∀ {c : Counter} (p : Period), (∃ total, c.used.add amount = .ok total) →
      ∃ total, (c.roll p now).used.add amount = .ok total := by
    intro c p hc
    unfold Counter.roll
    split
    · exact ⟨amount, rfl⟩
    · exact hc
  obtain ⟨daily, hdaily⟩ := hroll .daily (h .daily)
  obtain ⟨monthly, hmonthly⟩ := hroll .monthly (h .monthly)
  simp only [add, roll, during] at hdaily hmonthly ⊢
  rw [hdaily]
  dsimp only
  rw [hmonthly]

theorem Usage.add_eq_none_of_admitted (h : Admitted tier usage flow amount) :
    (usage.add flow amount now).2 = none := by
  have hmeter : (((usage.meter flow).roll now).add amount).2 = none :=
    Meter.add_roll_eq_none fun p => by
      obtain ⟨total, hadd, -⟩ := h.fits p
      exact ⟨total, hadd⟩
  rw [← meter_roll] at hmeter
  unfold add
  dsimp only
  split
  · rfl
  · rename_i hadd
    rw [hadd] at hmeter
    cases hmeter

end Quota

namespace Store.Usages

open Quota

variable {s : Usages} {user deposit : Uuid} {amount : Decimal} {now checked : Instant} {tier : Tier}

theorem entry_reset (s : Usages) (user : Uuid) (checked now : Instant) :
    (s.reset user checked).2.entry user now = (s.reset user checked).1 := by
  simp [entry, reset, put]

/-- What has been admitted can be counted at any later time, unless it has been counted. -/
theorem apply_of_admitted
    (h : Admitted tier (s.reset user checked).1 .deposit amount) (ha : ¬ amount ≤ .zero)
    (hnew : deposit ∉ s.applied) :
    ((s.reset user checked).2.apply user deposit amount now).1 = .ok (.ok true) := by
  have hnew' : deposit ∉ (s.reset user checked).2.applied := hnew
  rcases apply_cases (s.reset user checked).2 user deposit amount now with
    ⟨hle, -⟩ | ⟨hmem, -⟩ | ⟨-, -, -, hres⟩
  · exact absurd hle ha
  · exact absurd hmem hnew'
  · rw [hres, entry_reset, Usage.add_eq_none_of_admitted h]

end Store.Usages

/-! ## The gate -/

namespace World

/-- The world once a user's counters have been looked at. -/
def checked (w : World) (user : Uuid) : World :=
  { w with readings := w.readings + 1, usages := (w.usages.reset user (w.clock w.readings)).2 }

end World

namespace Quota

variable {w w' : World} {user : Uuid} {u : User} {flow : Flow} {amount : Decimal}
  {r : Except Failure Check}

theorem run_tierOf (hu : w.users.get? user = some u) :
    w.run (tierOf user).run = (.ok (.ok u.tier), w) := by
  have hfind : w.run (Program.request (.userById user)) = (.ok (some u), w) :=
    World.run_ask w (by rw [World.perform, hu])
  unfold tierOf
  rw [World.run_seq (World.run_lift hfind)]
  rfl

theorem run_current (hw : w.script.Faultless) (user : Uuid) :
    w.run (current user).run =
      (.ok (.ok (w.usages.reset user (w.clock w.readings)).1), w.checked user) := by
  refine World.run_ask w ?_
  simp only [World.perform, World.guarded_of_faultless hw]
  rfl

/-- The gate refuses the amount at once, or looks at the counters and decides by them. -/
theorem run_validate_cases (hw : w.Plain) (hu : w.users.get? user = some u)
    (h : w.run (validate flow user amount).run = (.ok r, w')) :
    (∃ d, r = .error (.overLimit d)) ∧ (w' = w ∨ w' = w.checked user) ∨
      (∃ c, r = .ok c) ∧ w' = w.checked user ∧
        Admitted u.tier (w.usages.reset user (w.clock w.readings)).1 flow amount := by
  unfold validate at h
  rw [World.run_seq (run_tierOf hu)] at h
  cases hminimum : checkMinimum u.tier flow amount with
  | error d =>
      rw [hminimum] at h
      cases h
      exact .inl ⟨⟨d, rfl⟩, .inl rfl⟩
  | ok _ =>
      have hpassed : w.run (ofVerdict (.ok ()) : Action Unit).run = (.ok (.ok ()), w) := rfl
      rw [hminimum, World.run_seq hpassed, World.run_seq (run_current hw.calm.faultless user)] at h
      cases heval : evaluate u.tier (w.usages.reset user (w.clock w.readings)).1 flow amount with
      | error o => rw [heval] at h; cases h
      | ok verdict =>
          rw [heval] at h
          cases verdict with
          | error d =>
              cases h
              exact .inl ⟨⟨d, rfl⟩, .inr rfl⟩
          | ok c =>
              cases h
              exact .inr ⟨⟨c, rfl⟩, rfl, admitted_of_evaluate heval⟩

end Quota

end Causeway
