import Causeway.Proofs.Quota.Judgement
import Causeway.Proofs.World.Changes

/-!
# Movements that were let through

A movement is validated at one instant and recorded at another, and in between a day or a month may
end. Its amount is then the first of a counter that starts anew, and no more than the sum that was
held against the cap (`Meter.Takes.roll`). So who records only what has just been let through stays
within the caps of the tier (`moved_within_caps`).
-/

namespace Causeway

namespace Quota

variable {m : Meter} {caps : Caps} {amount : Decimal} {now : Instant} {p : Period}

/-! ## Counters within their caps -/

structure Meter.Within (m : Meter) (caps : Caps) : Prop where
  nonneg : m.Nonneg
  le_cap : ∀ p, (m.during p).used ≤ caps.during p

theorem Meter.Within.start (hcaps : ∀ p, 0 ≤ (caps.during p).value) :
    (Meter.start now).Within caps := by
  refine ⟨.start now, fun p => ?_⟩
  rw [used_start, Decimal.le_iff, Decimal.value_zero]
  exact hcaps p

theorem Meter.Within.roll (h : m.Within caps) (hcaps : ∀ p, 0 ≤ (caps.during p).value)
    (now : Instant) : (m.roll now).Within caps := by
  refine ⟨h.nonneg.roll now, fun p => ?_⟩
  rcases m.used_roll now p with hzero | hkept
  · rw [hzero, Decimal.le_iff, Decimal.value_zero]
    exact hcaps p
  · rw [hkept]
    exact h.le_cap p

/-- What a counter has room for, it has room for once it has been started anew. -/
theorem Meter.Takes.roll (h : m.Takes caps amount) (hm : m.Nonneg) (ha : 0 ≤ amount.value) :
    (m.roll now).Takes caps amount := by
  intro p
  obtain ⟨total, hadd, hle⟩ := h p
  unfold Counter.Takes
  rcases m.used_roll now p with hzero | hkept
  · refine ⟨amount, by rw [hzero]; rfl, ?_⟩
    rw [Decimal.le_iff] at hle ⊢
    exact (Decimal.le_add (hm p) ha hadd).trans hle
  · rw [hkept]
    exact ⟨total, hadd, hle⟩

theorem Meter.Within.add (h : m.Within caps) (ha : 0 ≤ amount.value)
    (htakes : m.Takes caps amount) : (m.add amount).1.Within caps := by
  refine ⟨h.nonneg.add ha, fun p => ?_⟩
  obtain ⟨daily, hdaily, hdle⟩ := htakes .daily
  obtain ⟨monthly, hmonthly, hmle⟩ := htakes .monthly
  simp only [during] at hdaily hmonthly
  simp only [Meter.add, hdaily, hmonthly]
  cases p with
  | daily => exact hdle
  | monthly => exact hmle

end Quota

/-! ## The counters of a user -/

namespace Store.Usages

open Quota

variable {s : Usages} {user other : Uuid} {tier : Tier} {flow : Flow} {amount : Decimal}
  {now checked : Instant}

/-- What the user has moved is within the caps of the tier, whenever the counters are begun. -/
def Within (s : Usages) (user : Uuid) (tier : Tier) : Prop :=
  ∀ now flow, ((s.entry user now).meter flow).Within (tier.caps flow)

theorem Within.of_none (h : s.byUser.get? user = none) (tier : Tier) : s.Within user tier := by
  intro now flow
  rw [entry, h, Option.getD_none, Usage.meter_start]
  exact .start (caps_nonneg tier flow)

theorem Within.reset (h : s.Within user tier) (other : Uuid) (checked : Instant) :
    (s.reset other checked).2.Within user tier := by
  intro now flow
  rw [Usages.reset]
  by_cases hu : other = user
  · rw [hu, entry_put_self, Usage.meter_roll]
    exact (h checked flow).roll (caps_nonneg tier flow) checked
  · rw [entry_put_of_ne s _ hu]
    exact h now flow

/-- What is recorded of another user leaves the counters alone. -/
theorem Within.increment_of_ne (h : s.Within user tier) (hu : other ≠ user)
    (ha : ¬ amount ≤ .zero) : (s.increment other flow amount now).2.Within user tier := by
  intro now' flow'
  rw [increment_of_pos s other flow ha now, entry_put_of_ne s _ hu]
  exact h now' flow'

/-- What has been held against the counters at one time is within the caps once it is recorded at
another. -/
theorem Within.increment (h : s.Within user tier) (ha : ¬ amount ≤ .zero)
    (htakes : ((s.entry user now).meter flow).Takes (tier.caps flow) amount) :
    (s.increment user flow amount now).2.Within user tier := by
  have hpos := (pos_of_not_le_zero ha).le
  intro now' flow'
  rw [increment_of_pos s user flow ha now, entry_put_self]
  have hrolled (flow'') := (h now flow'').roll (caps_nonneg tier flow'') now
  by_cases hflow : flow' = flow
  · subst hflow
    rw [Usage.meter_add_self]
    exact (hrolled flow').add hpos (htakes.roll (h now flow').nonneg hpos)
  · rw [Usage.meter_add_of_ne hflow]
    exact hrolled flow'

end Store.Usages

/-! ## Runs of the gate -/

/-- A call that the script lets fail leaves all but the script as it is. -/
theorem World.guarded_eq_or {α : Type} (w : World) (call : StoreCall)
    (act : World → Outcome (Except Failure α)) :
    (∃ e script, w.guarded call act = (.ok (.error e), { w with script })) ∨
      w.guarded call act = act w := by
  unfold guarded
  split
  · exact .inl ⟨_, _, rfl⟩
  · exact .inr rfl

namespace Quota

variable {w w' : World} {user : Uuid} {u : User} {tier : Tier} {flow : Flow} {amount : Decimal}
  {r : Except Overflow (Except Failure Check)}

theorem run_current_cases (w : World) (user : Uuid) :
    (∃ e script, w.run (current user).run = (.ok (.error e), { w with script })) ∨
      w.run (current user).run =
        (.ok (.ok (w.usages.reset user (w.clock w.readings)).1), w.checked user) := by
  have hrun : w.run (current user).run = w.perform (.resetUsage user) := w.run_request _
  rw [hrun]
  simp only [World.perform]
  exact w.guarded_eq_or .usageReset _

/-- Whatever it meets, the gate leaves the counters as they are or rolls them, and what it lets
through the rolled counters have room for. -/
theorem run_validate_effect (h : w.run (validate flow user amount).run = (r, w')) :
    w'.users = w.users ∧
      (w'.usages = w.usages ∧ (∀ c, r ≠ .ok (.ok c)) ∨
        w'.usages = (w.usages.reset user (w.clock w.readings)).2 ∧
          ∀ c, r = .ok (.ok c) → ∃ u, w.users.get? user = some u ∧
            Admitted u.tier (w.usages.reset user (w.clock w.readings)).1 flow amount) := by
  unfold validate at h
  cases hu : w.users.get? user with
  | none =>
      rw [World.run_seq_of_error (run_tierOf_of_none hu)] at h
      cases h
      exact ⟨rfl, .inl ⟨rfl, by simp⟩⟩
  | some u =>
      rw [World.run_seq (run_tierOf hu)] at h
      cases hminimum : checkMinimum u.tier flow amount with
      | error d =>
          rw [hminimum] at h
          cases h
          exact ⟨rfl, .inl ⟨rfl, by simp⟩⟩
      | ok _ =>
          have hpassed : w.run (ofVerdict (.ok ()) : Action Unit).run = (.ok (.ok ()), w) := rfl
          rw [hminimum, World.run_seq hpassed] at h
          rcases run_current_cases w user with ⟨e, script, hfault⟩ | hreset
          · rw [World.run_seq_of_error hfault] at h
            cases h
            exact ⟨rfl, .inl ⟨rfl, by simp⟩⟩
          · rw [World.run_seq hreset] at h
            cases heval :
                evaluate u.tier (w.usages.reset user (w.clock w.readings)).1 flow amount with
            | error o =>
                rw [heval] at h
                cases h
                exact ⟨rfl, .inr ⟨rfl, by simp⟩⟩
            | ok verdict =>
                rw [heval] at h
                cases verdict with
                | error d =>
                    cases h
                    exact ⟨rfl, .inr ⟨rfl, by simp⟩⟩
                | ok c =>
                    cases h
                    exact ⟨rfl, .inr ⟨rfl, fun _ _ => ⟨u, rfl, admitted_of_evaluate heval⟩⟩⟩

theorem run_record_cases (w : World) (flow : Flow) (user : Uuid) (amount : Amount) :
    (∃ script, (w.run (record flow user amount).run).2 = { w with script }) ∨
      (w.run (record flow user amount).run).2 =
        { w with
          readings := w.readings + 1
          usages := (w.usages.increment user flow amount.value (w.clock w.readings)).2 } := by
  have hrun : w.run (record flow user amount).run =
      w.perform (.incrementUsage user flow amount.value) := w.run_request _
  rw [hrun]
  rcases w.guarded_eq_or .usageIncrement
      (·.changeUsage fun s now => s.increment user flow amount.value now) with
    ⟨e, script, hfault⟩ | hchange
  · exact .inl ⟨script, congrArg Prod.snd hfault⟩
  · exact .inr (congrArg Prod.snd hchange)

/-! ## Movements -/

/-- What a user wants to move, with the instants of the check and of the record. -/
structure Movement where
  user : Uuid
  flow : Flow
  amount : Decimal
  checkedAt : Instant
  recordedAt : Instant

/-- Records the amount only if it has just been let through. -/
def Movement.run (mv : Movement) (w : World) : World :=
  let (r, w) := (w.setClock mv.checkedAt).run (validate mv.flow mv.user mv.amount).run
  match r, Amount.ofDecimal? mv.amount with
  | .ok (.ok _), some amount =>
    ((w.setClock mv.recordedAt).run (record mv.flow mv.user amount).run).2
  | _, _ => w

def moveAll (w : World) (mvs : List Movement) : World := mvs.foldl (fun w mv => mv.run w) w

theorem Movement.run_within (mv : Movement) (hu : w.users.get? user = some u)
    (h : w.usages.Within user u.tier) :
    (mv.run w).users.get? user = some u ∧ (mv.run w).usages.Within user u.tier := by
  unfold Movement.run
  rcases hrun : (w.setClock mv.checkedAt).run (validate mv.flow mv.user mv.amount).run with ⟨r, w'⟩
  obtain ⟨husers, hcases⟩ := run_validate_effect hrun
  have husers : w'.users.get? user = some u := by
    rw [husers]
    exact hu
  have hwithin : w'.usages.Within user u.tier := by
    rcases hcases with ⟨hsame, -⟩ | ⟨hreset, -⟩
    · rw [hsame]
      exact h
    · rw [hreset]
      exact h.reset mv.user _
  dsimp only
  split
  · rename_i c amount hamount
    have hvalue := Amount.ofDecimal?_eq_some_iff.mp hamount
    rcases run_record_cases (w'.setClock mv.recordedAt) mv.flow mv.user amount with
      ⟨script, hfault⟩ | hrecord
    · rw [hfault]
      exact ⟨husers, hwithin⟩
    · rw [hrecord]
      refine ⟨husers, ?_⟩
      have hpos := Decimal.not_le_zero amount
      by_cases hsame : mv.user = user
      · rcases hcases with ⟨-, hdenied⟩ | ⟨hreset, hlet⟩
        · exact absurd rfl (hdenied c)
        · obtain ⟨u', hu', hadmitted⟩ := hlet c rfl
          subst hsame
          obtain rfl : u = u' := Option.some.inj (hu.symm.trans hu')
          refine hwithin.increment hpos fun p => ?_
          rw [hvalue]
          show ∃ total, (((w'.usages.entry mv.user mv.recordedAt).meter mv.flow).during p).used.add
            mv.amount = .ok total ∧ _
          rw [hreset, Store.Usages.entry_reset]
          exact hadmitted.fits p
      · exact hwithin.increment_of_ne hsame hpos
  · exact ⟨husers, hwithin⟩

theorem moveAll_within (mvs : List Movement) (hu : w.users.get? user = some u)
    (h : w.usages.Within user u.tier) : (moveAll w mvs).usages.Within user u.tier := by
  induction mvs generalizing w with
  | nil => exact h
  | cons mv mvs ih =>
      obtain ⟨hu, h⟩ := mv.run_within hu h
      exact ih hu h

/-- However many movements of whichever users have been checked and recorded, at whatever instants,
a user who had moved nothing before them has moved no more in a day or a month than the tier's
cap. -/
theorem moved_within_caps (hu : w.users.get? user = some u)
    (hnew : w.usages.byUser.get? user = none) (mvs : List Movement) (now : Instant) (flow : Flow)
    (p : Period) :
    ((((moveAll w mvs).usages.entry user now).meter flow).during p).used ≤
      (u.tier.caps flow).during p :=
  (moveAll_within mvs hu (.of_none hnew u.tier) now flow).le_cap p

namespace Sample

/-- A month ends between the check and the record of the first. -/
def movements : List Movement :=
  [⟨holder.id, .deposit, forty.value, midnight 58 (by decide), midnight 59 (by decide)⟩,
    ⟨holder.id, .withdrawal, forty.value, midnight 59 (by decide), midnight 59 (by decide)⟩]

theorem movements_within_caps :
    world.users.get? holder.id = some holder ∧ world.usages.byUser.get? holder.id = none ∧
      (∀ flow, ((((moveAll world movements).usages.entry holder.id .epoch).meter flow).during
        .monthly).used = forty.value) ∧
      ∀ now flow p,
        ((((moveAll world movements).usages.entry holder.id now).meter flow).during p).used ≤
          (holder.tier.caps flow).during p := by
  have hu : world.users.get? holder.id = some holder := Table.get?_insert_self ..
  refine ⟨hu, rfl, ?_, moved_within_caps hu rfl movements⟩
  intro flow
  cases flow <;> decide

end Sample

end Quota

end Causeway
