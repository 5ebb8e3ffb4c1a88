import Causeway.Proofs.Crossing.Conduct
import Causeway.Proofs.Crossing.Marking
import Causeway.Proofs.Store.Tally
import Mathlib.Algebra.BigOperators.Group.List.Basic
import Mathlib.Algebra.Ring.Rat
import Mathlib.Data.List.Nodup

/-!
# Funded deposits are counted once

What has been applied belongs to funded deposits, and what is marked has been applied, through every
failure of a write. The history says when each deposit was applied, and the counters of a user hold
the sums of the day and the month that are running.
-/

namespace Causeway

namespace World

variable {w w' : World}

/-- What the deposits and the usages say about each other. -/
structure Tallied (w : World) : Prop where
  funded : ∀ ⦃id⦄, id ∈ w.usages.applied →
    ∃ d, w.deposits.get? id = some d ∧ d.status = .brokerFunded
  marked : ∀ ⦃id d⦄, w.deposits.get? id = some d → d.usageRecordedAt.isSome →
    id ∈ w.usages.applied

theorem tallied_of_empty (hd : w.deposits = {}) (hu : w.usages = {}) : w.Tallied := by
  constructor <;> simp [hd, hu, Store.Deposits.get?]

theorem Tallied.apply (h : w.Tallied) {cur d : Deposit} {e : Deposit.Event} {now : Instant}
    (hcur : w.deposits.get? cur.id = some cur) (ha : cur.apply e now = .ok d)
    (hb : w.Backs cur e) (hm : d.usageRecordedAt.isSome) : cur.id ∈ w.usages.applied := by
  obtain ⟨_, rfl⟩ := Deposit.apply_eq_ok_iff.mp ha
  cases e with
  | usageRecorded => exact hb
  | railInitiated t => exact h.marked hcur hm
  | railCompleted amount => exact h.marked hcur hm
  | brokerFunded ref => exact h.marked hcur hm
  | failed reason => exact h.marked hcur hm

theorem Tallied.effect (h : w.Tallied) (hs : w.Sound) (he : Effect w w') : w'.Tallied := by
  have hw := he.later hs
  have hold : ∀ ⦃id⦄, id ∈ w.usages.applied →
      ∃ d, w'.deposits.get? id = some d ∧ d.status = .brokerFunded := by
    intro id hid
    obtain ⟨d, hd, hst⟩ := h.funded hid
    obtain ⟨d', hd', hl⟩ := hw.deposits hd
    exact ⟨d', hd', hl.status_funded hst⟩
  cases he with
  | quiet hq =>
      refine ⟨by rw [hq.usages]; exact hold, ?_⟩
      rw [hq.usages, hq.deposits]; exact h.marked
  | created hc =>
      refine ⟨hold, fun id d hd hm => ?_⟩
      rw [Store.Deposits.get?_create hc] at hd
      split at hd
      · cases hd; cases hm
      · exact h.marked hd hm
  | @moved cur d e now _ hcur ha hb hu =>
      refine ⟨hold, fun id d' hd' hm => ?_⟩
      rw [Store.Deposits.get?_update hu] at hd'
      split at hd'
      · rename_i hid
        cases hd'
        have hid' : d.id = cur.id := congrArg Deposit.Origin.id (Deposit.origin_of_apply ha)
        rw [← hid, hid']
        exact h.apply hcur ha hb hm
      · exact h.marked hd' hm
  | @counted d hd hf =>
      refine ⟨fun id hid => ?_, fun id d' hd' hm => ?_⟩
      · rcases Store.Usages.mem_applied_of_apply hid with hid | rfl
        · exact hold hid
        · exact ⟨d, hd, hf⟩
      · exact Store.Usages.mem_applied_apply (h.marked hd' hm)
  | paid hd hset ha hkey hq hdrawn hfund hby =>
      have hdep : w'.deposits = w.deposits := hq.deposits
      have husages : w'.usages = w.usages := hq.usages
      refine ⟨by rw [husages]; exact hold, ?_⟩
      rw [husages, hdep]; exact h.marked

end World

namespace Crossing

open Quota (Period)

/-! ## Applications -/

/-- A deposit that was added to its user's counters. -/
structure Application where
  user : Uuid
  deposit : Uuid
  amount : Decimal
  instant : Instant

def Exchange.application? : Exchange → Option Application
  | ⟨w, .applyUsage user deposit amount⟩ =>
    match (w.perform (.applyUsage user deposit amount)).1 with
    | .ok (.ok true) => some ⟨user, deposit, amount, w.clock w.readings⟩
    | _ => none
  | _ => none

/-- The applications of a run, the latest first. -/
def System.applications (σ : System) : List Application :=
  σ.history.filterMap Exchange.application?

/-- The counters that the exchange adds a deposit to, as they are by then, and its amount. -/
def Exchange.adds? : Exchange → Option (Quota.Meter × Decimal)
  | ⟨w, .applyUsage user deposit amount⟩ =>
    if w.script.fault? .usageApply = none ∧ deposit ∉ w.usages.applied then
      let now := w.clock w.readings
      some (((w.usages.entry user now).meter .deposit).roll now, amount)
    else none
  | _ => none

/-- What the exchange adds, it adds without overflow and without rounding. -/
def Exchange.Exact (x : Exchange) : Prop := ∀ m ∈ x.adds?, m.1.AddsExactly m.2

/-- What was added to a user's counters, and when. -/
def entriesOf (user : Uuid) (as : List Application) : List (Instant × ℚ) :=
  (as.filter (·.user = user)).map fun a => (a.instant, a.amount.value)

/-- The usages agree with the applications. -/
structure System.Counted (σ : System) : Prop where
  applied : σ.world.usages.applied = (σ.applications.map (·.deposit)).reverse
  distinct : (σ.applications.map (·.deposit)).Nodup
  stored : ∀ a ∈ σ.applications, ∃ d, σ.world.deposits.get? a.deposit = some d ∧
    d.user = a.user ∧ d.amount.value = a.amount
  holds : ∀ user, σ.world.usages.Holds user (entriesOf user σ.applications)
    fun t => ∃ n < σ.world.readings, t = σ.world.clock n

variable {s : Settings} {σ σ' : System}

theorem application_cases (w : World) (user deposit : Uuid) (a : Amount)
    (hx : Exchange.Exact ⟨w, .applyUsage user deposit a.value⟩) :
    (Exchange.application? ⟨w, .applyUsage user deposit a.value⟩ = none ∧
        (w.perform (.applyUsage user deposit a.value)).2.usages = w.usages) ∨
      let now := w.clock w.readings
      deposit ∉ w.usages.applied ∧
        Exchange.application? ⟨w, .applyUsage user deposit a.value⟩ =
          some ⟨user, deposit, a.value, now⟩ ∧
        (w.perform (.applyUsage user deposit a.value)).2 =
          { w with
            readings := w.readings + 1
            usages :=
              { byUser := w.usages.byUser.insert user
                  ((w.usages.entry user now).add .deposit a.value now).1
                applied := w.usages.applied ++ [deposit] } } ∧
        (((w.usages.entry user now).meter .deposit).roll now).AddsExactly a.value := by
  rcases World.applyUsage_cases w user deposit a.value with ⟨e, w', he, hq⟩ | ⟨hfault, he⟩
  · left
    simp only [Exchange.application?, he]
    exact ⟨trivial, hq.usages⟩
  · rcases Store.Usages.apply_cases w.usages user deposit a.value (w.clock w.readings) with
      ⟨hle, _⟩ | ⟨_, ha⟩ | ⟨_, hnew, hs, hr⟩
    · exact absurd hle (Decimal.not_le_zero a)
    · left
      rw [ha] at he
      simp only [Exchange.application?, he]
      exact ⟨trivial, trivial⟩
    · right
      have hadds : Exchange.adds? ⟨w, .applyUsage user deposit a.value⟩ = some _ :=
        if_pos ⟨hfault, hnew⟩
      have hexact := hx _ hadds
      have hnone : ((w.usages.entry user (w.clock w.readings)).add .deposit a.value
          (w.clock w.readings)).2 = none := Quota.Usage.add_eq_none hexact
      rw [hnone] at hr
      rw [hr, hs] at he
      simp only [Exchange.application?, he]
      exact ⟨hnew, trivial, trivial, hexact⟩

theorem perform_usages {w : World} (hs : w.Sound) {r : Request} (hr : w.Permits r)
    (hne : ∀ user deposit amount, r ≠ .applyUsage user deposit amount) :
    (w.perform r).2.usages = w.usages := by
  cases r with
  | createDeposit d =>
      rcases World.createDeposit_cases w d with ⟨_, _, he, hq⟩ | ⟨_, _, he⟩
      · rw [he]; exact hq.usages
      · rw [he]
  | updateDeposit d expected =>
      rcases World.updateDeposit_cases hs.race d expected with ⟨_, _, he, hq⟩ | ⟨_, _, he⟩
      · rw [he]; exact hq.usages
      · rw [he]
  | applyUsage user deposit amount => exact absurd rfl (hne user deposit amount)
  | fundAccount key account amount =>
      rcases World.fundAccount_cases w key account amount with ⟨_, _, hq, _⟩ | ⟨_, _, _, hq, _⟩
      · exact hq.usages
      · exact hq.usages
  | incrementUsage user flow amount => exact hr.elim
  | resetUsage user => exact hr.elim
  | _ => exact (World.perform_quiet rfl w).usages

theorem application?_eq_none {w : World} {r : Request}
    (hne : ∀ user deposit amount, r ≠ .applyUsage user deposit amount) :
    Exchange.application? ⟨w, r⟩ = none := by
  cases r with
  | applyUsage user deposit amount => exact absurd rfl (hne user deposit amount)
  | _ => rfl

/-! ## The counters agree with the applications -/

theorem entriesOf_cons (user : Uuid) (a : Application) (as : List Application) :
    entriesOf user (a :: as) =
      if a.user = user then (a.instant, a.amount.value) :: entriesOf user as
      else entriesOf user as := by
  unfold entriesOf
  by_cases h : a.user = user <;> simp [h]

/-- While nothing is added, what has been found out stays true. -/
theorem System.Counted.keep (h : σ.Counted) (hw : World.Later σ.world σ'.world)
    (happ : σ'.applications = σ.applications) (hu : σ'.world.usages = σ.world.usages)
    (hclock : σ'.world.clock = σ.world.clock) (hread : σ.world.readings ≤ σ'.world.readings) :
    σ'.Counted where
  applied := by rw [hu, happ]; exact h.applied
  distinct := by rw [happ]; exact h.distinct
  stored a ha := by
    rw [happ] at ha
    obtain ⟨d, hd, huser, hamount⟩ := h.stored a ha
    obtain ⟨d', hd', hl⟩ := hw.deposits hd
    exact ⟨d', hd', by rw [hl.user_eq]; exact huser, by rw [hl.amount_eq]; exact hamount⟩
  holds user := by
    rw [happ, hu, hclock]
    exact (h.holds user).mono fun t ⟨n, hn, ht⟩ => ⟨n, Nat.lt_of_lt_of_le hn hread, ht⟩

/-- A deposit is added at the reading `now`, in a period that no earlier reading is after. -/
theorem System.Counted.add (h : σ.Counted) {user deposit : Uuid} {a : Amount} {d : Deposit}
    (hmono : ∀ m n, m ≤ n → σ.world.clock m ≤ σ.world.clock n)
    (hlast : σ.world.clock σ.world.readings < .last)
    (hd : σ.world.deposits.get? deposit = some d) (huser : d.user = user) (hamount : d.amount = a)
    (hnew : deposit ∉ σ.world.usages.applied)
    (happ : σ'.applications =
      ⟨user, deposit, a.value, σ.world.clock σ.world.readings⟩ :: σ.applications)
    (hw : σ'.world =
      { σ.world with
        readings := σ.world.readings + 1
        usages :=
          { byUser := σ.world.usages.byUser.insert user
              ((σ.world.usages.entry user (σ.world.clock σ.world.readings)).add .deposit a.value
                (σ.world.clock σ.world.readings)).1
            applied := σ.world.usages.applied ++ [deposit] } })
    (hexact : (((σ.world.usages.entry user (σ.world.clock σ.world.readings)).meter .deposit).roll
      (σ.world.clock σ.world.readings)).AddsExactly a.value) : σ'.Counted where
  applied := by rw [hw, happ]; simp [h.applied]
  distinct := by
    rw [happ, List.map_cons, List.nodup_cons]
    refine ⟨fun hmem => hnew ?_, h.distinct⟩
    rw [h.applied, List.mem_reverse]
    exact hmem
  stored b hb := by
    rw [happ] at hb
    rw [hw]
    rcases List.mem_cons.mp hb with rfl | hb
    · exact ⟨d, hd, huser, by rw [hamount]⟩
    · exact h.stored b hb
  holds u := by
    rw [happ, entriesOf_cons, hw]
    by_cases hu : user = u
    · subst hu
      rw [if_pos rfl]
      have hholds := (h.holds user).entry
        (fun t ⟨n, hn, ht⟩ => by rw [ht]; exact hmono n _ (Nat.le_of_lt hn)) hlast
      refine Or.inr ⟨_, _, Table.get?_insert_self _ _ _, ⟨_, Nat.lt_succ_self _, rfl⟩, ?_⟩
      exact Quota.Usage.holds_add hexact hholds
    · rw [if_neg hu]
      rcases h.holds u with ⟨hnone, hnil⟩ | ⟨v, t, hv, ⟨n, hn, ht⟩, hholds⟩
      · exact Or.inl ⟨(Table.get?_insert_of_ne _ _ hu).trans hnone, hnil⟩
      · refine Or.inr ⟨v, t, ?_, ⟨n, Nat.lt_succ_of_lt hn, ht⟩, hholds⟩
        exact (Table.get?_insert_of_ne _ _ hu).trans hv

theorem System.Counted.turn (h : σ.Counted) (ho : σ.Orderly) {before behind : List Activity}
    {op : Operation} {r : Request} {k : r.Answer → Program Result}
    (hrun : σ.running = before ++ ⟨op, .call r k⟩ :: behind)
    (hmono : ∀ m n, m ≤ n → σ.world.clock m ≤ σ.world.clock n)
    (hexact : Exchange.Exact ⟨σ.world, r⟩)
    (hlast : ∀ n < (σ.world.perform r).2.readings, σ.world.clock n < .last) :
    (σ.turn before behind op r k).Counted := by
  have hperm := ho.obeys.permits hrun ho.sound
  have heff := World.perform_effect ho.sound hperm
  have hcons : (σ.turn before behind op r k).applications =
      (Exchange.application? ⟨σ.world, r⟩).toList ++ σ.applications := by
    simp only [System.applications, System.turn, List.filterMap_cons]
    cases Exchange.application? ⟨σ.world, r⟩ <;> rfl
  have hkeep : Exchange.application? ⟨σ.world, r⟩ = none →
      (σ.world.perform r).2.usages = σ.world.usages → (σ.turn before behind op r k).Counted := by
    intro hnone hu
    rw [hnone] at hcons
    exact h.keep (heff.later ho.sound) hcons hu heff.clock.1 heff.clock.2
  by_cases hr : ∀ user deposit amount, r ≠ .applyUsage user deposit amount
  · exact hkeep (application?_eq_none hr) (perform_usages ho.sound hperm hr)
  · simp only [not_forall, not_not] at hr
    obtain ⟨user, deposit, amount, rfl⟩ := hr
    obtain ⟨d, ⟨cur, hcur, hl⟩, _, rfl, rfl, rfl⟩ := hperm
    rcases application_cases σ.world d.user d.id d.amount hexact with
      ⟨hnone, hu⟩ | ⟨hnew, hsome, hw, hadds⟩
    · exact hkeep hnone hu
    · rw [hsome] at hcons
      refine h.add hmono (hlast _ ?_) hcur hl.user_eq hl.amount_eq hnew hcons hw hadds
      rw [hw]
      exact Nat.lt_succ_self _

theorem counted_of_idle {w : World} (hu : w.usages = {}) : System.Counted { world := w } where
  applied := by rw [hu]; rfl
  distinct := List.nodup_nil
  stored _ ha := nomatch ha
  holds user := by rw [hu]; exact Or.inl ⟨rfl, rfl⟩

theorem Run.counted {w : World} (hrun : Run s { world := w } σ) (hw : w.Sound)
    (hu : w.usages = {}) (hmono : ∀ m n, m ≤ n → w.clock m ≤ w.clock n)
    (hexact : ∀ x ∈ σ.history, x.Exact)
    (hlast : ∀ n < σ.world.readings, w.clock n < .last) :
    σ.Counted ∧ σ.world.clock = w.clock := by
  induction hrun with
  | refl => exact ⟨counted_of_idle hu, rfl⟩
  | @tail σ σ' hrun hstep ih =>
      have ho : σ.Orderly := Run.orderly hrun (System.orderly_of_idle hw)
      have heff := hstep.effect ho.sound ho.obeys
      obtain ⟨xs, hxs⟩ := hstep.history
      obtain ⟨hcounted, hclock⟩ := ih
        (fun x hx => hexact x (by rw [hxs]; exact List.mem_append_right _ hx))
        (fun n hn => hlast n (Nat.lt_of_lt_of_le hn heff.clock.2))
      refine ⟨?_, heff.clock.1.trans hclock⟩
      cases hstep with
      | start op => exact hcounted.keep (.refl _) rfl rfl rfl (Nat.le_refl _)
      | disturb hd =>
          have hq := hd.quiet
          exact hcounted.keep (heff.later ho.sound) rfl hq.usages hq.clock hq.readings
      | turn hr =>
          refine hcounted.turn ho hr (by rw [hclock]; exact hmono) (hexact _ ?_)
            (by rw [hclock]; exact hlast)
          exact List.mem_cons_self

/-! ## What the counters show -/

/-- The user's applied deposits that were applied in the day or the month of `now`. -/
def System.countedIn (σ : System) (user : Uuid) (p : Period) (now : Instant) : List Deposit :=
  (σ.world.usages.applied.filterMap σ.world.deposits.get?).filter fun d =>
    d.user = user ∧ ∃ a ∈ σ.applications, a.deposit = d.id ∧ p.index a.instant = p.index now

/-- The user's deposit counters, rolled at `now`, are the sums over the day and the month of `now`. -/
def System.Shows (σ : System) (user : Uuid) (now : Instant) : Prop :=
  ∀ p : Period, ((σ.world.usages.reset user now).1.deposit.during p).used.value =
    ((σ.countedIn user p now).map (·.amount.value.value)).sum

theorem sum_deposits {get : Uuid → Option Deposit} {P : Deposit → Bool} {Q : Application → Bool}
    {as : List Application}
    (h : ∀ a ∈ as, ∃ d, get a.deposit = some d ∧ d.amount.value = a.amount ∧ P d = Q a) :
    ((((as.map (·.deposit)).filterMap get).filter P).map (·.amount.value.value)).sum =
      ((as.filter Q).map (·.amount.value)).sum := by
  induction as with
  | nil => rfl
  | cons a as ih =>
      obtain ⟨d, hd, hamount, hPQ⟩ := h a (by simp)
      have ih := ih fun b hb => h b (by simp [hb])
      rw [List.map_cons, List.filterMap_cons_some hd]
      cases hQ : Q a with
      | true =>
          rw [hQ] at hPQ
          rw [List.filter_cons_of_pos hPQ, List.filter_cons_of_pos hQ, List.map_cons, List.map_cons,
            List.sum_cons, List.sum_cons, ih, hamount]
      | false =>
          rw [hQ] at hPQ
          rw [List.filter_cons_of_neg (by simp [hPQ]), List.filter_cons_of_neg (by simp [hQ]), ih]

theorem sumIn_entriesOf (user : Uuid) (p : Period) (i : Int) (as : List Application) :
    Quota.sumIn p i (entriesOf user as) =
      ((as.filter fun a => a.user = user ∧ p.index a.instant = i).map (·.amount.value)).sum := by
  unfold Quota.sumIn entriesOf
  simp only [List.filter_map, List.map_map, List.filter_filter]
  congr 2
  refine List.filter_congr fun a _ => ?_
  simp [Bool.and_comm]

theorem System.Counted.shows (h : σ.Counted) (hs : σ.world.Sound) {user : Uuid} {now : Instant}
    (hnow : ∀ n < σ.world.readings, σ.world.clock n ≤ now) (hlast : now < .last) :
    σ.Shows user now := by
  intro p
  have hholds := ((h.holds user).reset (fun t ⟨n, hn, ht⟩ => by rw [ht]; exact hnow n hn)
    hlast).during p
  rw [hholds.used, sumIn_entriesOf, System.countedIn, h.applied, ← List.map_reverse]
  have hinj := List.inj_on_of_nodup_map h.distinct
  rw [sum_deposits (Q := fun a => decide (a.user = user ∧ p.index a.instant = p.index now))]
  · rw [List.filter_reverse, List.map_reverse, List.sum_reverse]
  · intro a ha
    rw [List.mem_reverse] at ha
    obtain ⟨d, hd, huser, hamount⟩ := h.stored a ha
    refine ⟨d, hd, hamount, ?_⟩
    rw [decide_eq_decide, huser, hs.deposits.id_eq hd]
    -- A deposit is applied once, so its application is this one.
    constructor
    · rintro ⟨hu, b, hb, hba, hi⟩
      rw [hinj hb ha hba] at hi
      exact ⟨hu, hi⟩
    · rintro ⟨hu, hi⟩
      exact ⟨hu, a, ha, rfl, hi⟩

/-- For every run from empty books on a clock that never goes back and with exact sums: what has been
applied is funded, what is marked has been applied, the counters show what was applied in the day and
the month of `now`, and a sweep that is alone and meets no fault leaves every funded deposit applied
and marked. -/
theorem deposits_counted_once {w : World} (hd : w.deposits = {}) (hu : w.usages = {})
    (hrace : w.script.race = none) (hclock : ∀ m n, m ≤ n → w.clock m ≤ w.clock n)
    (hrun : Run s { world := w } σ) (hexact : ∀ x ∈ σ.history, x.Exact) :
    (∀ id ∈ σ.world.usages.applied,
        ∃ d, σ.world.deposits.get? id = some d ∧ d.status = .brokerFunded) ∧
      (∀ id d, σ.world.deposits.get? id = some d → d.usageRecordedAt.isSome →
        id ∈ σ.world.usages.applied) ∧
      (∀ user now, (∀ n < σ.world.readings, w.clock n ≤ now) → now < .last →
        σ.Shows user now) ∧
      ∀ σ' now res, (∀ a ∈ σ.running, a.ended) → Run s σ σ' →
        σ'.running = σ.running ++ [⟨.sweep now, .done res⟩] → (∀ x ∈ σ'.since σ, x.smooth) →
        ∀ id d, σ'.world.deposits.get? id = some d → d.status = .brokerFunded →
          id ∈ σ'.world.usages.applied ∧ d.usageRecordedAt.isSome := by
  have hw : w.Sound := ⟨by rw [hd]; exact Store.Deposits.Sound.empty, hrace⟩
  have ho := System.orderly_of_idle hw
  have htally : ∀ σ, Run s { world := w } σ → σ.world.Tallied := fun σ hrun =>
    hrun.invariant ho (fun _ _ hs he h => h.effect hs he) (World.tallied_of_empty hd hu)
  have hnow := htally σ hrun
  refine ⟨fun id hid => hnow.funded hid, fun id d hget hm => hnow.marked hget hm, ?_, ?_⟩
  · intro user now hread hlast
    obtain ⟨hcounted, hclock'⟩ := hrun.counted hw hu hclock hexact
      fun n hn => Int.lt_of_le_of_lt (hread n hn) hlast
    exact hcounted.shows (hrun.orderly ho).sound (by rw [hclock']; exact hread) hlast
  · intro σ' now res hended hrun' hres hsmooth id d hget hst
    have hall : Run s { world := w } σ' := hrun.trans hrun'
    have hsound := hall.history_sound hw
    have hmarked : d.usageRecordedAt.isSome := by
      have hsmooth : ∀ x ∈ σ'.since σ, x.before.Sound ∧ x.smooth :=
        fun x hx => ⟨hsound x (List.mem_of_mem_take hx), hsmooth x hx⟩
      rcases hrun'.marked hended hsmooth hres hget hst with hm | ⟨_, hmem, _⟩
      · exact hm
      · exact nomatch hmem
    exact ⟨(htally σ' hall).marked hget hmarked, hmarked⟩

theorem System.exact_of_zero
    (h : ∀ x ∈ σ.history, ∀ m ∈ x.adds?, m.1.daily.used = .zero ∧ m.1.monthly.used = .zero) :
    ∀ x ∈ σ.history, x.Exact := by
  intro x hx m hm
  obtain ⟨hd, hm⟩ := h x hx m hm
  exact ⟨by rw [hd]; exact Decimal.zero_addsExactly _, by rw [hm]; exact Decimal.zero_addsExactly _⟩

namespace Sample

theorem value_amount : amount.value.value = 120 := by
  simp [amount, Decimal.zero, Decimal.value, Decimal.coefficient, Decimal.signed]

theorem clock_mono (now : Instant) (m n : Nat) (_ : m ≤ n) :
    (world now).clock m ≤ (world now).clock n :=
  Int.le_refl _

theorem sum_counted {now : Instant} {σ : System} (as : List Amount)
    (h : (σ.countedIn user .daily now).map (·.amount) = as) :
    ((σ.countedIn user .daily now).map (·.amount.value.value)).sum =
      (as.map (·.value.value)).sum := by
  rw [← h, List.map_map]
  rfl

def lastNoon : Instant :=
  Store.Usages.Sample.noon Instant.last.day ⟨Instant.last.day_ge, Instant.last.day_le⟩

end Sample

/-- A deposit whose count was lost is counted and marked by the next sweep; one that was counted at
once shows in the counters. -/
theorem sample_is_counted_once :
    ((Sample.paid .epoch).world.usages.reset Sample.user .epoch).1.deposit.daily.used.value = 120 ∧
      Sample.deposit ∉ (Sample.uncounted .epoch).world.usages.applied ∧
      Sample.deposit ∈ (Sample.swept .epoch).world.usages.applied := by
  have hpaid : ∀ x ∈ (Sample.paid .epoch).history, x.Exact := System.exact_of_zero (by decide)
  have huncounted : ∀ x ∈ (Sample.uncounted .epoch).history, x.Exact :=
    System.exact_of_zero (by decide)
  refine ⟨?_, by decide, ?_⟩
  · have hshows := (deposits_counted_once (w := Sample.world .epoch) rfl rfl rfl
      (Sample.clock_mono .epoch) (Sample.run_paid .epoch) hpaid).2.2.1 Sample.user .epoch
      (fun _ _ => Int.le_refl _) (by decide)
    have hdaily := hshows .daily
    rw [Sample.sum_counted [Sample.amount] (by decide)] at hdaily
    exact hdaily.trans (by simp [Sample.value_amount])
  · have hfunded : ((Sample.swept .epoch).world.deposits.get? Sample.deposit).map (·.status) =
        some .brokerFunded := by decide
    obtain ⟨d, hd, hst⟩ := Option.map_eq_some_iff.mp hfunded
    have hres : (Sample.swept .epoch).running = (Sample.uncounted .epoch).running ++
        [⟨.sweep .epoch, .done (.sweep (.ok { usageRecorded := 1 }))⟩] := rfl
    exact ((deposits_counted_once (w := Sample.world .epoch) rfl rfl rfl
      (Sample.clock_mono .epoch) (Sample.run_uncounted .epoch) huncounted).2.2.2 _ _ _ (by decide)
      (Sample.run_swept .epoch) hres (by decide) _ d hd hst).1

/-- The two conditions on `now` are needed. The last instant is the end of every period that it is
in, so a roll at it forgets that period; and a clock that has been seen later than `now` may have
started a period that `now` is not in. -/
theorem counters_stray_off_the_clock :
    (¬ ∀ (s : Settings) (w : World) (σ : System), w.deposits = {} → w.usages = {} →
        w.script.race = none → (∀ m n, m ≤ n → w.clock m ≤ w.clock n) →
        Run s { world := w } σ → (∀ x ∈ σ.history, x.Exact) →
        ∀ user now, (∀ n < σ.world.readings, w.clock n ≤ now) → σ.Shows user now) ∧
      ¬ ∀ (s : Settings) (w : World) (σ : System), w.deposits = {} → w.usages = {} →
        w.script.race = none → (∀ m n, m ≤ n → w.clock m ≤ w.clock n) →
        Run s { world := w } σ → (∀ x ∈ σ.history, x.Exact) →
        ∀ user now, now < .last → σ.Shows user now := by
  constructor
  · intro h
    have hshows := h .standard (Sample.world Sample.lastNoon) (Sample.paid Sample.lastNoon) rfl rfl
      rfl (Sample.clock_mono _) (Sample.run_paid _) (System.exact_of_zero (by decide)) Sample.user
      .last (fun _ _ => (by decide : Sample.lastNoon ≤ .last)) .daily
    have hused : (((Sample.paid Sample.lastNoon).world.usages.reset Sample.user
        .last).1.deposit.during .daily).used = .zero := by decide
    rw [hused, Sample.sum_counted [Sample.amount] (by decide)] at hshows
    simp [Sample.value_amount] at hshows
  · intro h
    have hshows := h .standard (Sample.world Sample.secondDay) (Sample.paid Sample.secondDay) rfl
      rfl rfl (Sample.clock_mono _) (Sample.run_paid _) (System.exact_of_zero (by decide))
      Sample.user .epoch (by decide) .daily
    have hused : (((Sample.paid Sample.secondDay).world.usages.reset Sample.user
        .epoch).1.deposit.during .daily).used = Sample.amount.value := by decide
    rw [hused, Sample.sum_counted [] (by decide)] at hshows
    simp [Sample.value_amount] at hshows

end Crossing

end Causeway
