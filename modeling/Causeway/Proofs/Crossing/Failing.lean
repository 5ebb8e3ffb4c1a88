import Causeway.Proofs.Crossing.Aborted
import Causeway.Proofs.Crossing.Calls
import Causeway.Proofs.Crossing.Claims
import Causeway.Proofs.Crossing.Outcome

/-!
# Failures leave the books as they were

A callback that fails has written nothing and paid nothing in. A funding that fails may have paid in
without noting it, but the deposit waits where it was and is not claimed any more, so nothing is
lost: as soon as the stores and the brokerage serve again, it can be funded after all
(`fund_succeeds`).
-/

namespace Causeway.Crossing

open World (Intact Later Unwritten Untouched)

variable {s : Settings} {w₀ w w' : World} {d : Deposit} {a : VirtualAccount} {α : Type}
  {E : Failure → World → Prop}

/-! ## Fundings that go through -/

/-- Nothing at all happens between two requests. -/
abbrev secluded : Rules := Rules.alone World.Sound fun _ => True

theorem secluded_of_lone {p : Program α} {Q : α → World → Prop} (h : lone.Keeps p Q w) :
    secluded.Keeps p Q w := by
  induction p generalizing w with
  | done a => exact h
  | call r k ih =>
      rintro w' rfl hs
      obtain ⟨-, hnext⟩ := h w' (.refl w') hs
      exact ⟨trivial, fun a ha => ih a (hnext a ha)⟩
  | crash o => trivial

/-- What keeps to the rules finds the deposits sound at each of its requests. -/
theorem along_sound {p : Program α} {Q : α → World → Prop} (hs : w.Sound)
    (hp : rules.Keeps p Q w) : World.Along World.Sound p w := by
  induction p generalizing w with
  | done a => exact hs
  | crash o => exact hs
  | call r k ih =>
      obtain ⟨hperm, hnext⟩ := hp w (.refl w) hs
      exact ⟨hs, fun a ha => ih a ((World.perform_effect hs hperm).sound hs) (hnext a ha)⟩

theorem payIn_served (h : w.Serving 0) (key account : String) {amount : Decimal}
    (hpos : ¬ amount ≤ .zero) :
    secluded.Yields (Action.retrying (policy s) (payIn key account amount))
      (fun _ w' => w'.Serving 0 ∧ Untouched w w') E w := by
  refine Rules.retrying_calm trivial h.not_aborted ?_
  obtain ⟨ref, ms, v, hp, hv, huntouched, -⟩ :=
    World.fundAccount_of_serving h key account hpos
  refine Rules.Yields.bind (Rules.Yields.lift (Rules.Keeps.answered trivial (fun _ => hp)
    fun _ => ?_))
  exact Rules.receive_clear (fun _ => trivial) hv.clear_self
    ⟨hv.wait, huntouched.trans { Untouched.refl v with }⟩

/-- Whether the deposit is counted as well does not matter. -/
theorem fundClaimed_served (h : w.Serving 0) (hd : w.deposits.get? d.id = some d)
    (hst : d.status = .railCompleted) (ha : w.accounts.get? d.account = some a)
    (hpos : ¬ d.settledAmount ≤ .zero) :
    secluded.Yields (fundClaimed s d.id) (fun _ _ => True) (fun _ _ => False) w := by
  refine Rules.Yields.bind (Rules.Yields.ask (Rules.Keeps.answered trivial
    (fun _ => World.look_of_faultless h.faultless .depositsById _) fun _ => ?_))
  rw [hd]
  refine Rules.Yields.bind (Rules.Yields.pure ?_)
  dsimp only
  rw [if_neg (by simp [hst])]
  refine Rules.Yields.bind (Rules.Yields.ask (Rules.Keeps.answered trivial
    (fun _ => World.look_of_faultless h.faultless .accountsById _) fun _ => ?_))
  rw [ha]
  refine Rules.Yields.bind (Rules.Yields.pure ?_)
  refine Rules.Yields.next (payIn_served h d.id.toText a.brokerageAccount hpos) ?_
  rintro ref w₁ ⟨h₁, huntouched⟩
  rw [← huntouched.deposits] at hd
  refine Rules.Yields.bind (mark_alone trivial hst fun now => Rules.Yields.bind
    (update_alone trivial h₁.faultless (fun hs => hs.race) (fun hs => ?_) fun deposits hu => ?_))
  · rw [← hst]
    exact Store.Deposits.update_of_stored hs.deposits hd rfl rfl
  · exact Rules.Yields.bind (Rules.Yields.result (Rules.Yields.mono
      (secluded_of_lone (recordUsage_lone (Store.Deposits.get?_update_self hu)))
      (fun _ _ _ => Rules.Yields.pure trivial) fun _ _ _ => Rules.Yields.pure trivial))

theorem fund_served (h : w.Serving 0) (hd : w.deposits.get? d.id = some d)
    (hst : d.status = .railCompleted) (hfree : d.id ∉ w.claims)
    (ha : w.accounts.get? d.account = some a) (hpos : ¬ d.settledAmount ≤ .zero) :
    secluded.Yields (fund s d) (fun _ _ => True) (fun _ _ => False) w := by
  have hclaim : w.perform (.claim d.id) = (.ok true, { w with claims := d.id :: w.claims }) := by
    simp only [World.perform, if_neg hfree]
  unfold fund
  dsimp only
  rw [if_neg (by simp [hst])]
  refine Rules.Yields.bind (Rules.Yields.lift (Rules.Keeps.answered trivial (fun _ => hclaim)
    fun _ => ?_))
  refine Rules.Yields.bind (Rules.Yields.result (Rules.Yields.mono
    (fundClaimed_served ⟨h.faultless, h.fundings, h.clear⟩ hd hst ha hpos)
    (fun d' w' _ => ?_) fun _ _ => False.elim))
  exact Rules.Yields.bind (Rules.Yields.lift (Rules.Keeps.perform trivial fun _ _ _ =>
    Rules.Yields.ofExcept trivial))

/-- What has come over the rail can be funded while the stores and the brokerage serve. -/
theorem fund_succeeds (hs : w.Sound) (h : w.Serving 0) (hd : w.deposits.get? d.id = some d)
    (hst : d.status = .railCompleted) (hfree : d.id ∉ w.claims)
    (ha : w.accounts.get? d.account = some a) (hpos : ¬ d.settledAmount ≤ .zero)
    (hoverflow : ∀ o, (w.run (fund s d).run).1 ≠ .error o) :
    ∃ d' w', w.run (fund s d).run = (.ok (.ok d'), w') ∧ d'.status = .brokerFunded ∧
      w'.deposits.get? d.id = some d' := by
  obtain ⟨r, w', hrun⟩ : ∃ r w', w.run (fund s d).run = (r, w') := ⟨_, _, rfl⟩
  cases r with
  | error o => exact absurd (congrArg Prod.fst hrun) (hoverflow o)
  | ok r =>
      have halong := along_sound hs (fund_safe (s := s) d w)
      obtain ⟨-, hserved⟩ := World.run_keeps halong (fund_served h hd hst hfree ha hpos) hrun
      obtain ⟨-, hr⟩ := World.run_keeps halong (secluded_of_lone (fund_lone s d w)) hrun
      cases r with
      | error e => exact hserved.elim
      | ok d' =>
          obtain ⟨cur, hid, -, hmoved, hfunded, -⟩ := hr
          exact ⟨d', w', hrun, hfunded, hid ▸ hmoved.after⟩

/-! ## Failures -/

/-- Wherever a deposit that has come over the rail is found again, it waits as it did, or has been
funded. -/
theorem waits_or_finished (hst : d.status = .railCompleted) (hd : w.deposits.get? d.id = some d)
    (hw : Later w w') : w'.deposits.get? d.id = some d ∨ Finished w' d.id := by
  obtain ⟨d', hd', hled⟩ := hw.deposits hd
  rcases (hled.settled (.inl hst)).1 with hst' | hst'
  · refine .inl ?_
    rcases hled.eq_markedAs (hst'.trans hst.symm) with rfl | ⟨hfunded, -⟩
    · exact hd'
    · rw [hst] at hfunded
      cases hfunded
  · exact .inr ⟨d', hd', hst'⟩

theorem Acted.claims {transfer : String} {out : CallbackOutcome}
    (h : Acted transfer w out w') : w'.claims = w.claims := by
  cases out with
  | advanced _ _ =>
      obtain ⟨_, _, -, -, hmoved, -⟩ := h
      exact hmoved.claims
  | unmatched => exact Unwritten.claims h
  | unchanged _ => exact Unwritten.claims h

variable {σ σ' : System}

/-- A callback gives back what it claims, and has neither written nor paid in if it fails. -/
theorem callback_failing {transfer : String} {r : Except Failure CallbackOutcome} (hs : w₀.Sound)
    (hbefore : Run s { world := w₀ } σ) (hended : ∀ a ∈ σ.running, a.ended) (hrun : Run s σ σ')
    (hres : σ'.running = σ.running ++ [⟨.callback transfer, .done (.callback r)⟩]) :
    σ'.world.claims = σ.world.claims ∧ ∀ e, r = .error e → Intact σ.world σ'.world := by
  have hr := Run.lone (Q := fun _ w => w.claims = σ.world.claims) (E := fun _ => Intact σ.world)
    hs hbefore hended hrun (fun _ _ => Result.callback.inj) rfl
    (fun _ _ _ hw h => hw.claims.trans h) (fun _ _ _ hw h => h.trans hw)
    (fun w hw => Rules.Yields.mono (callback_lone s transfer w)
      (fun _ _ h => h.claims.trans hw.claims) fun _ _ h => hw.trans h) hres
  cases r with
  | ok out => exact ⟨hr, fun _ => nofun⟩
  | error e => exact ⟨Unwritten.claims (Intact.toUnwritten hr), fun _ _ => hr⟩

/-- A funding gives back what it claims, and has not written if it fails. -/
theorem fund_failing {r : Except Failure Deposit} (hs : w₀.Sound)
    (hbefore : Run s { world := w₀ } σ) (hended : ∀ a ∈ σ.running, a.ended) (hrun : Run s σ σ')
    (hres : σ'.running = σ.running ++ [⟨.fund d, .done (.deposit r)⟩]) :
    σ'.world.claims = σ.world.claims ∧ ∀ e, r = .error e → Unwritten σ.world σ'.world := by
  have hr := Run.lone (Q := fun _ w => w.claims = σ.world.claims) (E := fun _ => Unwritten σ.world)
    hs hbefore hended hrun (fun _ _ => Result.deposit.inj) rfl
    (fun _ _ _ hw h => hw.claims.trans h) (fun _ _ _ hw h => h.trans hw.toUnwritten)
    (fun w hw => Rules.Yields.mono (fund_lone s d w)
      (fun _ _ ⟨_, _, _, hmoved, _⟩ => hmoved.claims.trans hw.claims)
      fun _ _ h => hw.toUnwritten.trans h) hres
  cases r with
  | ok d' => exact ⟨hr, fun _ => nofun⟩
  | error e => exact ⟨Unwritten.claims hr, fun _ _ => hr⟩

/-- A callback or a funding that no other operation meets gives back what it claims, however it
ends. If the callback fails, no deposit, no usage and no funding has changed, and if the funding
fails, no deposit and no usage has. What has come over the rail then waits until somebody funds it,
and that succeeds as soon as no other operation is in progress and the stores and the brokerage
serve. -/
theorem failure_leaves_books (h₀ : Reached s w₀) (hclaims : w₀.claims = [])
    (hbefore : Run s { world := w₀ } σ) (hended : ∀ a ∈ σ.running, a.ended) (hrun : Run s σ σ') :
    (∀ transfer r, σ'.running = σ.running ++ [⟨.callback transfer, .done (.callback r)⟩] →
      σ'.world.claims = σ.world.claims ∧ ∀ e, r = .error e → Intact σ.world σ'.world) ∧
    (∀ d r, σ'.running = σ.running ++ [⟨.fund d, .done (.deposit r)⟩] →
      σ'.world.claims = σ.world.claims ∧ ∀ e, r = .error e → Unwritten σ.world σ'.world) ∧
    ∀ d a e, σ'.running = σ.running ++ [⟨.fund d, .done (.deposit (.error e))⟩] →
      σ.world.deposits.get? d.id = some d → d.status = .railCompleted →
      σ.world.accounts.get? d.account = some a → ¬ d.settledAmount ≤ .zero →
      ∀ σ'', Run s σ' σ'' → (∀ a ∈ σ''.running, a.ended) → ¬ Finished σ''.world d.id →
        σ''.world.Serving 0 → (∀ o, (σ''.world.run (fund s d).run).1 ≠ .error o) →
        ∃ d' w, σ''.world.run (fund s d).run = (.ok (.ok d'), w) ∧ d'.status = .brokerFunded ∧
          w.deposits.get? d.id = some d' := by
  refine ⟨fun transfer r => callback_failing h₀.sound hbefore hended hrun,
    fun d r => fund_failing h₀.sound hbefore hended hrun, ?_⟩
  intro d a e hfail hd hst ha hpos σ'' hrun' hended' hunfunded hserving hoverflow
  have horderly := Run.orderly hbefore (System.orderly_of_idle h₀.sound)
  have hlater := Run.later (hrun.trans hrun') horderly
  have hwhole := (hbefore.trans hrun).trans hrun'
  have hfree : d.id ∉ σ''.world.claims := fun hid =>
    hunfunded (Run.funded_of_claimed hwhole h₀.sound hclaims hended' hid)
  exact fund_succeeds (Run.orderly (hrun.trans hrun') horderly).sound hserving
    ((waits_or_finished hst hd hlater).resolve_right hunfunded) hst hfree (hlater.accounts ha) hpos
    hoverflow

namespace Sample

/-- The deposit that waits to be paid in. -/
def arrived : Deposit :=
  { copy with
    transfer := some transfer
    destinationAmount := some amount.value
    railInitiatedAt := some .epoch
    railCompletedAt := some .epoch }

/-- The next payment will not be noted. -/
def forgetful : System :=
  { unpaid with
    world := { unpaid.world with
      script := { updateFaults := [(.brokerFunded, .storage (.stated "unavailable"))] } } }

theorem run_forgetful : Run .standard { world := world .epoch } forgetful :=
  run_unpaid.trans (run_disturb (.script _ rfl))

/-- Nothing but the brokerage knows of the payment. -/
def unnoted : System := forgetful.alone .standard (.fund arrived)

end Sample

/-- The deposit is paid in but not funded, and the next funding makes up for that. -/
theorem sample_is_funded_after_all :
    Unwritten Sample.forgetful.world Sample.unnoted.world ∧
      Sample.unnoted.world.brokerage.fundings.length = 1 ∧
      ∃ d w, Sample.unnoted.world.run (fund .standard Sample.arrived).run = (.ok (.ok d), w) ∧
        d.status = .brokerFunded ∧ w.deposits.get? Sample.deposit = some d := by
  obtain ⟨-, hfailing, hagain⟩ := failure_leaves_books (.empty rfl rfl rfl) rfl Sample.run_forgetful
    (by decide) (run_alone Sample.forgetful (.fund Sample.arrived))
  have hfail : Sample.unnoted.running = Sample.forgetful.running ++
      [⟨.fund Sample.arrived, .done (.deposit (.error (.storage (.stated "unavailable"))))⟩] := rfl
  have hunwritten := (hfailing _ _ hfail).2 _ rfl
  have hstored : Sample.forgetful.world.deposits.get? Sample.deposit = some Sample.arrived := by
    decide
  have hserving : Sample.unnoted.world.Serving 0 :=
    ⟨⟨by decide, by decide⟩, by decide, fun a ha => nomatch ha⟩
  have hunfunded : ¬ Finished Sample.unnoted.world Sample.deposit := by
    rintro ⟨d, hd, hst⟩
    rw [show Sample.unnoted.world.deposits = _ from hunwritten.deposits, hstored] at hd
    cases hd
    cases hst
  obtain ⟨d, w, hrun, hst, hd⟩ := hagain Sample.arrived Sample.account _ hfail hstored rfl
    (by decide) (by decide) _ .refl (by decide) hunfunded hserving fun _ h => nomatch h
  exact ⟨hunwritten, by decide, d, w, hrun, hst, hd⟩

end Causeway.Crossing
