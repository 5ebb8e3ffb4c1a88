import Causeway.Proofs.Store.Usages

/-!
# Stores that no later call can tell apart

Counters are rolled whenever they are touched, and to roll them twice is to roll them once, at the
later instant (`Counter.roll_roll`). So two usage stores are alike since an instant if from then on
every counter rolls to the same. A reset of either leaves them alike (`Alike.reset_left`), and the
same change of both gives the same result and leaves them alike (`Alike.increment`, `Alike.apply`).
-/

namespace Causeway

theorem Instant.midnight_le_last (day : Int) : (midnight? day).getD last ≤ last := by
  unfold midnight? ofParts?
  split
  · rename_i h
    show (day * 86400 + (0 : Nat)) * 2000000000 + (0 : Nat) ≤ last.key
    have hlast : last.key = (95026236 * 86400 + 86399) * 2000000000 + 999999999 := rfl
    rw [hlast]
    omega
  · exact Int.le_refl _

namespace Quota

variable {p : Period} {s t : Instant} {flow flow' : Flow} {amount : Decimal}

theorem Period.reset_le_last (p : Period) (t : Instant) : p.reset t ≤ .last := by
  cases p <;> exact Instant.midnight_le_last _

/-- What was begun earlier has either ended since or has the same end. -/
theorem Counter.start_roll (p : Period) (h : s ≤ t) : (start p s).roll p t = start p t := by
  by_cases hexp : p.reset s ≤ t
  · exact if_pos (decide_eq_true hexp)
  · have hkeep : (start p s).roll p t = start p s :=
      if_neg fun he => hexp (of_decide_eq_true he)
    rw [hkeep]
    by_cases ht : t < .last
    · rw [Period.reset_le_iff ht] at hexp
      have hle : p.index s ≤ p.index t := Period.index_mono h
      unfold start
      rw [Period.reset_eq (show p.index s = p.index t by omega)]
    · exact absurd (Int.le_trans (Period.reset_le_last p s) (Int.not_lt.mp ht)) hexp

theorem Counter.roll_roll (c : Counter) (p : Period) (h : s ≤ t) :
    (c.roll p s).roll p t = c.roll p t := by
  by_cases hs : c.resetAt ≤ s
  · have ht : c.resetAt ≤ t := Int.le_trans hs h
    have hroll : c.roll p s = start p s := if_pos (decide_eq_true hs)
    rw [hroll, start_roll p h]
    exact (if_pos (decide_eq_true ht)).symm
  · have hroll : c.roll p s = c := if_neg fun he => hs (of_decide_eq_true he)
    rw [hroll]

theorem Meter.roll_roll (m : Meter) (h : s ≤ t) : (m.roll s).roll t = m.roll t := by
  simp only [roll, Counter.roll_roll _ _ h]

theorem Meter.start_roll (h : s ≤ t) : (start s).roll t = start t := by
  simp only [roll, start, Counter.start_roll _ h]

theorem Usage.meter_start (user : Uuid) (flow : Flow) (now : Instant) :
    (start user now).meter flow = .start now := by
  cases flow <;> rfl

/-! ## What a change comes to -/

theorem Usage.meter_withMeter (u : Usage) (flow : Flow) (m : Meter) :
    (u.withMeter flow m).meter flow = m := by
  cases flow <;> rfl

theorem Usage.meter_add_self (u : Usage) (flow : Flow) (amount : Decimal) (now : Instant) :
    (u.add flow amount now).1.meter flow = (((u.meter flow).roll now).add amount).1 := by
  rw [← meter_roll]
  simp only [add]
  rcases ((u.roll now).meter flow).add amount with ⟨m, _ | o⟩
  · cases flow <;> rfl
  · exact meter_withMeter _ _ _

theorem Usage.add_overflow (u : Usage) (flow : Flow) (amount : Decimal) (now : Instant) :
    (u.add flow amount now).2 = (((u.meter flow).roll now).add amount).2 := by
  rw [← meter_roll]
  simp only [add]
  rcases ((u.roll now).meter flow).add amount with ⟨m, _ | o⟩ <;> rfl

end Quota

namespace Store.Usages

open Quota

variable {s s' : Usages} {u u' : Usage} {t now : Instant} {user user' deposit : Uuid} {flow : Flow}
  {amount : Decimal}

/-- What the user's counters of a flow are once they have been rolled. -/
def rolled (s : Usages) (user : Uuid) (flow : Flow) (now : Instant) : Meter :=
  ((s.entry user now).meter flow).roll now

/-- From an instant on nothing tells the stores apart. -/
structure Alike (t : Instant) (s s' : Usages) : Prop where
  applied : s.applied = s'.applied
  rolled : ∀ user flow now, t ≤ now → s.rolled user flow now = s'.rolled user flow now

theorem Alike.refl (t : Instant) (s : Usages) : Alike t s s := ⟨rfl, fun _ _ _ _ => rfl⟩

theorem Alike.later (h : Alike t s s') (ht : t ≤ now) : Alike now s s' :=
  ⟨h.applied, fun user flow now' hnow => h.rolled user flow now' (Int.le_trans ht hnow)⟩

theorem entry_put_self (s : Usages) (u : Usage) (user : Uuid) (now : Instant) :
    (s.put u user).entry user now = u := by
  simp [entry, put]

theorem entry_put_of_ne (s : Usages) (u : Usage) (h : user ≠ user') (now : Instant) :
    (s.put u user).entry user' now = s.entry user' now := by
  simp [entry, put, h]

theorem rolled_put_self (s : Usages) (u : Usage) (user : Uuid) (flow : Flow) (now : Instant) :
    (s.put u user).rolled user flow now = (u.meter flow).roll now := by
  simp [rolled, entry, put]

theorem rolled_put_of_ne (s : Usages) (u : Usage) (h : user ≠ user') (flow : Flow) (now : Instant) :
    (s.put u user).rolled user' flow now = s.rolled user' flow now := by
  simp [rolled, entry, put, h]

/-- Rolling an entry now changes nothing of what it rolls to later. -/
theorem rolled_entry (s : Usages) (user : Uuid) (flow : Flow) (h : t ≤ now) :
    ((s.entry user t).meter flow).roll now = s.rolled user flow now := by
  unfold rolled entry
  cases s.byUser.get? user with
  | some u => rfl
  | none =>
      rw [Option.getD_none, Option.getD_none, Usage.meter_start, Usage.meter_start,
        Meter.start_roll h, Meter.start_roll (Int.le_refl _)]

theorem rolled_reset (s : Usages) (user user' : Uuid) (flow : Flow) (h : t ≤ now) :
    (s.reset user t).2.rolled user' flow now = s.rolled user' flow now := by
  by_cases hu : user = user'
  · subst hu
    have hput : (s.reset user t).2.rolled user flow now =
        (((s.entry user t).roll t).meter flow).roll now := rolled_put_self ..
    rw [hput, Usage.meter_roll, Meter.roll_roll _ h, rolled_entry s user flow h]
  · exact rolled_put_of_ne s _ hu flow now

theorem addEntry_eq (s : Usages) (user : Uuid) (flow : Flow) (amount : Decimal) (now : Instant) :
    s.addEntry user flow amount now =
      (s.put ((s.entry user now).add flow amount now).1 user,
        ((s.entry user now).add flow amount now).2) :=
  rfl

theorem increment_of_pos (s : Usages) (user : Uuid) (flow : Flow) (ha : ¬ amount ≤ .zero)
    (now : Instant) :
    s.increment user flow amount now =
      (match ((s.entry user now).add flow amount now).2 with
        | none => .ok (.ok ())
        | some o => .error o,
        s.put ((s.entry user now).add flow amount now).1 user) := by
  rw [increment, if_neg ha, addEntry_eq]
  rcases (s.entry user now).add flow amount now with ⟨u, _ | o⟩ <;> rfl

namespace Alike

theorem symm (h : Alike t s s') : Alike t s' s :=
  ⟨h.applied.symm, fun user flow now hnow => (h.rolled user flow now hnow).symm⟩

theorem reset_left (h : Alike t s s') (user : Uuid) (ht : t ≤ now) :
    Alike now (s.reset user now).2 s' where
  applied := h.applied
  rolled user' flow now' hnow := by
    rw [rolled_reset s user user' flow hnow]
    exact h.rolled user' flow now' (Int.le_trans ht hnow)

theorem reset (h : Alike t s s') (user : Uuid) (ht : t ≤ now) :
    Alike now (s.reset user now).2 (s'.reset user now).2 :=
  ((h.reset_left user ht).symm.reset_left user (Int.le_refl _)).symm

theorem meter_reset (h : Alike t s s') (user : Uuid) (ht : t ≤ now) (flow : Flow) :
    (s.reset user now).1.meter flow = (s'.reset user now).1.meter flow := by
  simp only [Usages.reset, Usage.meter_roll]
  exact h.rolled user flow now ht

theorem put (h : Alike t s s') (hu : ∀ flow, u.meter flow = u'.meter flow) (user : Uuid) :
    Alike t (s.put u user) (s'.put u' user) where
  applied := h.applied
  rolled user' flow now hnow := by
    by_cases heq : user = user'
    · subst heq
      rw [rolled_put_self, rolled_put_self, hu]
    · rw [rolled_put_of_ne s u heq, rolled_put_of_ne s' u' heq]
      exact h.rolled user' flow now hnow

theorem addEntry (h : Alike t s s') (ht : t ≤ now) (user : Uuid) (flow : Flow) (amount : Decimal) :
    (s.addEntry user flow amount now).2 = (s'.addEntry user flow amount now).2 ∧
      Alike now (s.addEntry user flow amount now).1 (s'.addEntry user flow amount now).1 := by
  have hrolled (flow') : ((s.entry user now).meter flow').roll now =
      ((s'.entry user now).meter flow').roll now := h.rolled user flow' now ht
  rw [addEntry_eq, addEntry_eq]
  refine ⟨?_, (h.later ht).put (fun flow' => ?_) user⟩
  · dsimp only
    rw [Usage.add_overflow, Usage.add_overflow, hrolled]
  · by_cases hflow : flow' = flow
    · subst hflow
      rw [Usage.meter_add_self, Usage.meter_add_self, hrolled]
    · rw [Usage.meter_add_of_ne hflow, Usage.meter_add_of_ne hflow, hrolled]

theorem increment (h : Alike t s s') (ht : t ≤ now) (user : Uuid) (flow : Flow)
    (amount : Decimal) :
    (s.increment user flow amount now).1 = (s'.increment user flow amount now).1 ∧
      Alike now (s.increment user flow amount now).2 (s'.increment user flow amount now).2 := by
  obtain ⟨hover, halike⟩ := h.addEntry ht user flow amount
  unfold Usages.increment
  by_cases ha : amount ≤ .zero
  · rw [if_pos ha, if_pos ha]
    exact ⟨rfl, h.later ht⟩
  · rw [if_neg ha, if_neg ha]
    generalize s.addEntry user flow amount now = x at *
    generalize s'.addEntry user flow amount now = x' at *
    obtain ⟨s₁, _ | o⟩ := x <;> obtain ⟨s₂, _ | o'⟩ := x' <;> cases hover <;> exact ⟨rfl, halike⟩

theorem apply (h : Alike t s s') (ht : t ≤ now) (user deposit : Uuid) (amount : Decimal) :
    (s.apply user deposit amount now).1 = (s'.apply user deposit amount now).1 ∧
      Alike now (s.apply user deposit amount now).2 (s'.apply user deposit amount now).2 := by
  have hnoted : Alike t { s with applied := s.applied ++ [deposit] }
      { s' with applied := s'.applied ++ [deposit] } := ⟨by rw [h.applied], h.rolled⟩
  obtain ⟨hover, halike⟩ := hnoted.addEntry ht user .deposit amount
  unfold Usages.apply
  by_cases ha : amount ≤ .zero
  · rw [if_pos ha, if_pos ha]
    exact ⟨rfl, h.later ht⟩
  · rw [if_neg ha, if_neg ha, ← h.applied]
    by_cases hmem : deposit ∈ s.applied
    · rw [if_pos hmem, if_pos hmem]
      exact ⟨rfl, h.later ht⟩
    · rw [if_neg hmem, if_neg hmem]
      rw [← h.applied] at hover halike
      generalize Usages.addEntry { s with applied := s.applied ++ [deposit] } _ _ _ _ = x at *
      generalize Usages.addEntry { s' with applied := s.applied ++ [deposit] } _ _ _ _ = x' at *
      obtain ⟨s₁, _ | o⟩ := x <;> obtain ⟨s₂, _ | o'⟩ := x' <;> cases hover <;> exact ⟨rfl, halike⟩

end Alike

end Store.Usages

end Causeway
