import Causeway.Proofs.Crossing.Aborted
import Causeway.Proofs.Crossing.Reached
import Causeway.Proofs.World.Footprint

/-!
# One deposit at a time

An operation that is alone changes nothing but what belongs to one deposit
(`operations_keep_to_one_deposit`). Every request of the operation concerns that deposit
(`confining`), and such a request leaves everything else as it was (`Confined.perform`).
-/

namespace Causeway

open Deposit (Event Status)

namespace World

variable {w₀ w w' : World} {d : Deposit} {id : Uuid} {r : Request}

/-! ## A run on one deposit -/

/-- Nothing has changed, or nothing but what belongs to the deposit with the id. -/
structure Confined (id : Uuid) (w w' : World) : Prop where
  clock : w'.clock = w.clock
  readings : w.readings ≤ w'.readings
  changes : Unchanged w w' ∨ ∃ d, d.id = id ∧ ChangesOnly d w w'

theorem Confined.refl (id : Uuid) (w : World) : Confined id w w :=
  ⟨rfl, Nat.le_refl _, .inl (.refl w)⟩

theorem Confined.changesOnly (h : Confined d.id w₀ w) (hd : w.deposits.get? d.id = some d) :
    ChangesOnly d w₀ w := by
  rcases h.changes with hsame | ⟨d', hid, hd'⟩
  · exact hsame.changesOnly hd
  · have hstored := hd'.stored
    rw [hid, hd] at hstored
    cases hstored
    exact hd'

/-- The request concerns the deposit: it writes, counts or pays in that deposit or orders under its
reference, if it does any of these. -/
def Concerns (id : Uuid) (w : World) : Request → Prop
  | .createDeposit d | .updateDeposit d _ => d.id = id
  | .applyUsage _ deposit _ => deposit = id
  | .fundAccount key _ _ => key = id.toText
  | .createTransfer o => ∃ d, w.deposits.get? id = some d ∧ d.reference = o.reference
  | _ => True

theorem Confined.quiet (h : Confined id w₀ w) (hq : Quiet w (w.perform r).2)
    (ho : ∀ o, r ≠ .createTransfer o) : Confined id w₀ (w.perform r).2 := by
  have hw := unchanged_of_quiet hq ho
  refine ⟨hq.clock.trans h.clock, Nat.le_trans h.readings hq.readings, ?_⟩
  rcases h.changes with hsame | ⟨d, hid, hd⟩
  · exact .inl (hsame.trans hw)
  · exact .inr ⟨d, hid, hd.unchanged hw hq.readings⟩

theorem Confined.createDeposit (h : Confined d.id w₀ w) :
    Confined d.id w₀ (w.perform (.createDeposit d)).2 := by
  rcases w.createDeposit_cases d with ⟨_, _, he, hq⟩ | ⟨deposits, hc, he⟩
  · refine h.quiet ?_ (by simp)
    rw [he]
    exact hq
  · obtain ⟨hnew, -⟩ := Store.Deposits.create_eq_ok hc
    have hget (id : Uuid) : deposits.get? id = if d.id = id then some d else w.deposits.get? id :=
      Store.Deposits.get?_create hc
    -- Nothing is stored under the id yet, so nothing has changed before.
    have hsame : Unchanged w₀ w := by
      rcases h.changes with hsame | ⟨d', hid, hd'⟩
      · exact hsame
      · have hstored := hd'.stored
        rw [hid, hnew] at hstored
        cases hstored
    rw [he]
    refine ⟨h.clock, h.readings, .inr ⟨d, rfl, (hget d.id).trans (if_pos rfl), fun d₀ hd₀ => ?_,
      fun id hne => ?_, hsame.accounts, .inl hsame.usages, .inl hsame.transfers,
      .inl ⟨hsame.fundings, hsame.byKey⟩⟩⟩
    · rw [← hsame.deposits, hnew] at hd₀
      cases hd₀
    · rw [hget, if_neg hne.symm, hsame.deposits]

theorem Confined.updateDeposit {expected : Status} (h : Confined d.id w₀ w) (hs : w.Sound)
    (hp : w.Permits (.updateDeposit d expected)) :
    Confined d.id w₀ (w.perform (.updateDeposit d expected)).2 := by
  obtain ⟨d₀, e, now, ⟨cur, hcur, hl⟩, rfl, hd, hb⟩ := hp
  rcases updateDeposit_cases hs.race d d₀.status with ⟨_, _, he, hq⟩ | ⟨deposits, hu, he⟩
  · refine h.quiet ?_ (by simp)
    rw [he]
    exact hq
  · have hf : d₀.status = .railCompleted → ∀ reason, e ≠ .failed reason := by
      rintro hst reason rfl
      exact hb hst
    obtain ⟨hcur, -, hm, -⟩ := Store.Deposits.update_moves hs.deposits hcur hl hd hf hu
    have hid : cur.id = d.id := hs.deposits.id_eq hcur
    rw [he]
    rw [← hid] at h hcur ⊢
    exact ⟨h.clock, h.readings, .inr ⟨d, hid.symm, (h.changesOnly hcur).update hm hu⟩⟩

theorem Confined.applyUsage (h : Confined d.id w₀ w) (hd : w.Recalls d) {a : Except Failure Bool}
    (ha : (w.perform (.applyUsage d.user d.id d.amount.value)).1 = .ok a) :
    Confined d.id w₀ (w.perform (.applyUsage d.user d.id d.amount.value)).2 := by
  obtain ⟨cur, hcur, hl⟩ := hd
  rcases w.applyUsage_cases d.user d.id d.amount.value with ⟨_, _, he, hq⟩ | ⟨-, he⟩
  · refine h.quiet ?_ (by simp)
    rw [he]
    exact hq
  · rw [he] at ha ⊢
    rw [← hl.id_eq] at h hcur ha ⊢
    rw [← hl.user_eq, ← hl.amount_eq] at ha ⊢
    exact ⟨h.clock, Nat.le_succ_of_le h.readings, .inr ⟨cur, rfl,
      (h.changesOnly hcur).apply h.clock h.readings (Prod.ext ha rfl)⟩⟩

theorem Confined.createTransfer {o : Rail.Order} (h : Confined d.id w₀ w)
    (hd : w.deposits.get? d.id = some d) (ho : d.reference = o.reference) :
    Confined d.id w₀ (w.perform (.createTransfer o)).2 := by
  have hq := w.createTransfer_quiet o
  exact ⟨hq.clock.trans h.clock, Nat.le_trans h.readings hq.readings,
    .inr ⟨d, rfl, (h.changesOnly hd).order ho⟩⟩

theorem Confined.fundAccount {a : VirtualAccount} (h : Confined d.id w₀ w) (hs : w.Sound)
    (hp : w.Permits (.fundAccount d.id.toText a.brokerageAccount d.settledAmount))
    (hd : w.Recalls d) (hst : d.status = .railCompleted)
    (ha : w.accounts.get? d.account = some a) :
    Confined d.id w₀
      (w.perform (.fundAccount d.id.toText a.brokerageAccount d.settledAmount)).2 := by
  obtain ⟨hclock, hreadings⟩ := (perform_effect hs hp).clock
  obtain ⟨cur, hcur, hl⟩ := hd
  obtain ⟨hset, hamount⟩ := hl.settled (.inl hst)
  rw [← hl.id_eq] at h hcur
  rw [← hl.account_eq] at ha
  rw [← hl.id_eq, ← hamount] at hclock hreadings ⊢
  exact ⟨hclock.trans h.clock, Nat.le_trans h.readings hreadings, .inr ⟨cur, rfl,
    (h.changesOnly hcur).fund hset ha⟩⟩

/-- A permitted request that concerns a deposit changes nothing that belongs to others. -/
theorem Confined.perform (h : Confined id w₀ w) (hs : w.Sound) (hp : w.Permits r)
    (hc : w.Concerns id r) {a : r.Answer} (ha : (w.perform r).1 = .ok a) :
    Confined id w₀ (w.perform r).2 := by
  cases r with
  | createDeposit d =>
      cases hc
      exact h.createDeposit
  | updateDeposit d expected =>
      cases hc
      exact h.updateDeposit hs hp
  | applyUsage user deposit amount =>
      cases hc
      obtain ⟨d, hd, -, rfl, rfl, rfl⟩ := hp
      exact h.applyUsage hd ha
  | createTransfer o =>
      obtain ⟨d, hd, ho⟩ := hc
      obtain rfl : d.id = id := hs.deposits.id_eq hd
      exact h.createTransfer hd ho
  | fundAccount key account amount =>
      have hpaid := hp
      obtain ⟨d, a, hd, hst, haccount, rfl, rfl, rfl⟩ := hpaid
      obtain rfl := Uuid.toText_inj hc
      exact h.fundAccount hs hp hd hst haccount
  | incrementUsage _ _ _ | resetUsage _ => exact hp.elim
  | _ => exact h.quiet (perform_quiet rfl w) (by simp)

end World

namespace Crossing

open Program (Only)
open World (Unchanged ChangesOnly Confined)

variable {s : Settings} {w₀ w w' : World} {d d' : Deposit} {id : Uuid} {r : Request} {ε α : Type}

/-- Nothing happens between the requests of an operation, and each concerns the deposit. -/
def confining (id : Uuid) : Rules where
  assumes w r := w.Sound ∧ w.Permits r
  rely w w' := w' = w
  permits := World.Concerns id
  refl _ := rfl
  trans h h' := h'.trans h

/-- What makes permitted requests that concern one deposit changes that deposit only. -/
theorem run_confined {p : Program α} {Q Q' : α → World → Prop} (hs : w.Sound)
    (hp : rules.Keeps p Q w) (hc : (confining id).Keeps p Q' w) (h : Confined id w₀ w) {a : α}
    (hrun : w.run p = (.ok a, w')) : Confined id w₀ w' ∧ Q' a w' := by
  induction p generalizing w with
  | done b =>
      cases hrun
      exact ⟨h, hc⟩
  | call r k ih =>
      obtain ⟨hperm, hnext⟩ := hp w (.refl w) hs
      obtain ⟨hcon, hcnext⟩ := hc w rfl ⟨hs, hperm⟩
      have hs' := (World.perform_effect hs hperm).sound hs
      rw [World.run] at hrun
      split at hrun
      · rename_i b v hb
        have h' := h.perform hs hperm hcon (congrArg Prod.fst hb)
        rw [hb] at hnext hcnext hs' h'
        exact ih b hs' (hnext b rfl) (hcnext b rfl) h' hrun
      · cases hrun
  | crash o => cases hrun

/-! ## What operations ask for -/

/-- The request concerns the deposit, wherever it is recalled. -/
def About (d : Deposit) (r : Request) : Prop := ∀ w : World, w.Recalls d → w.Concerns d.id r

/-- What is about a deposit only keeps confined to it, since it stays recalled. -/
theorem about_confined {t : ExceptT ε Program α} (ht : t.run.Only (About d)) (hd : w.Recalls d) :
    (confining d.id).Safe t (fun _ _ => True) w := by
  have hspares : ∀ r, About d r → (confining d.id).Spares (fun w => w.Recalls d) r := by
    rintro r hr w w' hw rfl ⟨hs, hp⟩
    exact ⟨hr w' hw, hw.later ((World.perform_effect hs hp).later hs)⟩
  refine Rules.Keeps.mono (Rules.Keeps.spared hspares ht hd) fun r w _ => ?_
  cases r <;> trivial

theorem only_confined {t : ExceptT ε Program α}
    (ht : t.run.Only fun r => ∀ w, World.Concerns id w r) (w : World) :
    (confining id).Safe t (fun _ _ => True) w :=
  Rules.Safe.only (fun w _ h => h w) ht w

theorem looks_concern {r : Request} (h : World.Looks r) (w : World) : w.Concerns id r := by
  cases r with
  | now | isAborted | isCancelled | pause _ => trivial
  | depositById _ | depositByTransfer _ | depositsIn _ => trivial
  | accountByRail _ | accountById _ | listTransfers _ _ => trivial
  | _ => exact h.elim

theorem mark_confined (d : Deposit) (e : Event) (w : World) :
    (confining id).Safe (mark d e) (fun d' _ => d'.id = d.id) w :=
  Rules.Safe.bind (Rules.Safe.lift .now (fun _ => trivial) w) fun _ w _ =>
    Rules.Safe.mono (Rules.Safe.ofExcept _ w) fun _ _ ha =>
      congrArg Deposit.Origin.id (Deposit.origin_of_apply ha)

/-! ### Onto the rail -/

theorem startRail_about (s : Settings) (d : Deposit) : (startRail s d).run.Only (About d) :=
  only_startRail
    (fun _ ⟨cur, hcur, hl⟩ => ⟨cur, hcur, congrArg Deposit.Origin.reference hl.origin⟩)
    (fun _ _ => trivial) (fun _ _ => trivial) (fun _ _ _ => trivial) fun _ hid _ _ => hid

/-- Nothing has changed unless the deposit was new. -/
theorem take_confined (s : Settings) (d : Deposit) (hw : Unchanged w₀ w) :
    (confining d.id).Yields
      (Action.ask (Program.request (.createDeposit d)) >>= fun _ => startRail s d)
      (fun _ w' => Unchanged w₀ w' ∨ w₀.deposits.get? d.id = none)
      (fun _ w' => Unchanged w₀ w' ∨ w₀.deposits.get? d.id = none) w := by
  refine Rules.Yields.bind (Rules.Yields.ask (Rules.Keeps.request fun w' hw' _ =>
    ⟨rfl, fun a ha => ?_⟩))
  obtain rfl : w' = w := hw'
  rcases w'.createDeposit_cases d with ⟨e, v, he, hq⟩ | ⟨deposits, hc, he⟩
  · rw [he] at ha
    cases ha
    refine .inl (hw.trans (World.unchanged_of_quiet ?_ (by simp)))
    rw [he]
    exact hq
  · rw [he] at ha ⊢
    cases ha
    obtain ⟨hnew, -⟩ := Store.Deposits.create_eq_ok hc
    rw [hw.deposits] at hnew
    have hd : World.Recalls { w' with deposits } d :=
      ⟨d, (Store.Deposits.get?_create hc).trans (if_pos rfl), .refl⟩
    exact Rules.Yields.mono (about_confined (startRail_about s d) hd) (fun _ _ _ => .inr hnew)
      fun _ _ _ => .inr hnew

/-- What an initiation changes concerns the identifier that was to be drawn next. -/
theorem initiate_confined (s : Settings) (user : Uuid) (railAccount : String) (amount : Amount)
    (reference : String) (w : World) :
    (confining (w.ids w.drawn)).Yields (initiate s user railAccount amount reference)
      (fun _ w' => Unchanged w w' ∨ w.deposits.get? (w.ids w.drawn) = none)
      (fun _ w' => Unchanged w w' ∨ w.deposits.get? (w.ids w.drawn) = none) w := by
  unfold initiate
  dsimp only
  split
  · exact Rules.Yields.throw (.inl (.refl w))
  refine Rules.Yields.bind (Rules.Yields.ask (Rules.Keeps.request fun w₁ hw _ =>
    ⟨trivial, fun found hfound => ?_⟩))
  obtain rfl : w₁ = w := hw
  cases found with
  | error e => exact .inl (World.unchanged_of_quiet (World.perform_quiet rfl w₁) (by simp))
  | ok found =>
      obtain ⟨-, hsame⟩ := World.look_ok hfound
      rw [show (w₁.perform (.accountByRail railAccount)).2 = w₁ from hsame]
      refine Rules.Yields.bind (Rules.Yields.orNotFound (fun account _ => ?_)
        fun _ => .inl (.refl w₁))
      split
      · exact Rules.Yields.throw (.inl (.refl w₁))
      refine Rules.Yields.bind (Rules.Yields.lift (Rules.Keeps.request fun w₂ hw _ =>
        ⟨trivial, fun now _ => ?_⟩))
      obtain rfl : w₂ = w₁ := hw
      refine Rules.Yields.bind (Rules.Yields.lift (Rules.Keeps.request fun w₃ hw _ =>
        ⟨trivial, fun id hid => ?_⟩))
      obtain rfl : w₃ = { w₂ with readings := w₂.readings + 1 } := hw
      obtain rfl : w₂.ids w₂.drawn = id := Except.ok.inj hid
      exact take_confined s
        (.start (w₂.ids w₂.drawn) user account.id reference amount s.crossing.currency now)
        ⟨rfl, rfl, rfl, rfl, rfl, rfl⟩

/-! ### Into the brokerage -/

theorem recordUsage_about (hid : d'.id = d.id) : (recordUsage d').run.Only (About d) := by
  refine Only.seq (.request fun _ _ => hid) fun _ => ?_
  refine only_mark (fun _ _ => trivial) fun now d'' ha => ?_
  have hid' := congrArg Deposit.Origin.id (Deposit.origin_of_apply ha)
  exact Only.seq (.request fun _ _ => hid'.trans hid) fun _ => trivial

theorem payIn_about (d : Deposit) (account : String) (amount : Decimal) :
    (payIn d.id.toText account amount).run.Only (About d) :=
  .seq (.lift (.request fun _ _ => rfl)) fun reply => .receive (fun _ _ _ => trivial) _ reply

theorem depositById_confined (id : Uuid) (w : World) :
    (confining id).Safe (depositById id)
      (fun found w => ∀ d, found = some d → d.id = id ∧ w.Recalls d) w := by
  refine Rules.Safe.ask (Rules.Keeps.request fun w' _ ha =>
    ⟨trivial, fun r hr found hfound d hd => ?_⟩)
  subst hfound hd
  obtain ⟨hd, hw⟩ := World.look_ok hr
  rw [show (w'.perform (.depositById id)).2 = w' from hw]
  exact ⟨ha.1.deposits.id_eq hd.symm, ha.1.recalls hd.symm⟩

theorem fundClaimed_confined (s : Settings) (id : Uuid) (w : World) :
    (confining id).Safe (fundClaimed s id) (fun _ _ => True) w := by
  refine Rules.Safe.bind (depositById_confined id w) fun found w hfound => ?_
  refine Rules.Yields.bind (Rules.Yields.orNotFound (fun d hd => ?_) fun _ => trivial)
  obtain ⟨rfl, hd⟩ := hfound d hd
  refine about_confined ?_ hd
  refine Only.unless fun _ => ?_
  refine Only.seq (.request fun _ _ => trivial) fun found => ?_
  refine Only.seq (.orNotFound _ _ found) fun account => ?_
  refine Only.seq ((payIn_about d _ _).retrying (fun _ _ => trivial) (fun _ _ _ => trivial) _)
    fun ref => ?_
  refine only_mark (fun _ _ => trivial) fun now d' ha => ?_
  have hid := congrArg Deposit.Origin.id (Deposit.origin_of_apply ha)
  refine Only.seq (.request fun _ _ => hid) fun _ => ?_
  refine Only.seq (recordUsage_about hid).result fun r => ?_
  cases r <;> trivial

theorem fund_confined (s : Settings) (d : Deposit) (w : World) :
    (confining d.id).Safe (fund s d) (fun _ _ => True) w := by
  unfold fund
  refine Rules.Safe.unless fun _ => ?_
  refine Rules.Safe.bind (Rules.Safe.lift (.claim d.id) (fun _ => trivial) w) fun claimed w _ => ?_
  refine Rules.Safe.unless fun _ => ?_
  refine Rules.Safe.bind (Rules.Safe.result (fundClaimed_confined s d.id w)) fun r w _ => ?_
  refine Rules.Safe.bind (Rules.Safe.lift (.release d.id) (fun _ => trivial) w) fun _ w _ => ?_
  exact Rules.Safe.mono (Rules.Safe.ofExcept r w) fun _ _ _ => trivial

/-! ### News from the rail -/

theorem tell_confined {e : Event} {f : Deposit → Action CallbackOutcome} (hid : d.id = id)
    (hf : ∀ d' w, d'.id = id → (confining id).Safe (f d') (fun _ _ => True) w) (w : World) :
    (confining id).Safe (do
        let d' ← mark d e
        if !(← persist d' d.status) then return ← currentOutcome d.id
        f d')
      (fun _ _ => True) w := by
  refine Rules.Safe.bind (mark_confined d e w) fun d' w hid' => ?_
  replace hid' := hid'.trans hid
  refine Rules.Safe.bind (only_confined (only_persist fun _ => hid') w) fun b w _ => ?_
  cases b with
  | true => exact hf d' w hid'
  | false => exact only_confined (only_currentOutcome fun _ => trivial) w

theorem callback_confined (s : Settings) (id : Uuid) (transfer : String) (w : World)
    (hid : ∀ d, w.deposits.getByTransfer? transfer = some d → d.id = id) :
    (confining id).Yields (callback s transfer)
      (fun _ w' => Unchanged w w' ∨ (w.deposits.getByTransfer? transfer).isSome)
      (fun _ w' => Unchanged w w' ∨ (w.deposits.getByTransfer? transfer).isSome) w := by
  have hstatus : (Action.retrying (policy s) (Provider.status s.provider transfer)).run.Only
      World.Looks :=
    (only_search (fun _ _ => trivial) (fun _ => trivial) _ _ _ _).retrying trivial
      (fun _ => trivial) _
  refine Rules.Yields.bind (Rules.Yields.ask (Rules.Keeps.request fun w' hw _ =>
    ⟨trivial, fun a ha => ?_⟩))
  obtain rfl : w' = w := hw
  have hsame := World.unchanged_of_quiet (r := .depositByTransfer transfer)
    (World.perform_quiet rfl w') (by simp)
  cases a with
  | error e => exact .inl hsame
  | ok found =>
      obtain ⟨rfl, -⟩ := World.look_ok ha
      cases hfound : w'.deposits.getByTransfer? transfer with
      | none => exact Rules.Yields.pure (.inl hsame)
      | some d =>
          replace hid := hid d hfound
          refine Rules.Yields.mono (Q := fun _ _ => True) (E := fun _ _ => True) ?_
            (fun _ _ _ => .inr rfl) fun _ _ _ => .inr rfl
          dsimp only
          split
          · exact Rules.Safe.pure trivial
          refine Rules.Safe.bind (Rules.Safe.only (fun w _ h => looks_concern h w) hstatus _)
            fun response w _ => ?_
          cases response.status with
          | completed =>
              refine tell_confined hid (fun d' w hid' => ?_) w
              subst hid'
              refine Rules.Safe.bind (Rules.Safe.result (fund_confined s d' w)) fun r w _ => ?_
              cases r <;> exact Rules.Safe.pure trivial
          | failed => exact tell_confined hid (fun _ _ _ => Rules.Safe.pure trivial) w
          | pending => exact Rules.Safe.pure trivial
          | processing => exact Rules.Safe.pure trivial

theorem cancel_confined (s : Settings) (id : Uuid) (w : World) :
    (confining id).Safe (cancel s id) (fun _ _ => True) w :=
  only_confined (only_cancel fun _ => trivial) w

/-! ## Operations alone -/

/-- Wherever operations have led, whatever is scripted to fail and whenever an abort comes: an
operation that is alone and that no overflow ends changes nothing, or only what belongs to one
deposit. That is one it has created, the one that the transfer is linked to, the one to be paid in
or the one to be cancelled. -/
theorem operations_keep_to_one_deposit (h : Reached s w) :
    (∀ user railAccount amount reference r w',
      w.run (initiate s user railAccount amount reference).run = (.ok r, w') →
        Unchanged w w' ∨ ∃ d, w.deposits.get? d.id = none ∧ ChangesOnly d w w') ∧
      (∀ transfer r w', w.run (callback s transfer).run = (.ok r, w') →
        Unchanged w w' ∨ ∃ d₀ d, w.deposits.getByTransfer? transfer = some d₀ ∧ d.id = d₀.id ∧
          ChangesOnly d w w') ∧
      (∀ d₀ r w', w.run (fund s d₀).run = (.ok r, w') →
        Unchanged w w' ∨ ∃ d, d.id = d₀.id ∧ ChangesOnly d w w') ∧
      ∀ id r w', w.run (cancel s id).run = (.ok r, w') →
        Unchanged w w' ∨ ∃ d, d.id = id ∧ ChangesOnly d w w' := by
  refine ⟨fun user railAccount amount reference r w' hrun => ?_, fun transfer r w' hrun => ?_,
    fun d₀ r w' hrun => ?_, fun id r w' hrun => ?_⟩
  · have hinitiate := initiate_confined s user railAccount amount reference w
    obtain ⟨hw, hnew⟩ := run_confined h.sound (initiate_safe user railAccount amount reference w)
      hinitiate (.refl _ w) hrun
    have hnew : Unchanged w w' ∨ w.deposits.get? (w.ids w.drawn) = none := by
      cases r <;> exact hnew
    rcases hnew with hsame | hnew
    · exact .inl hsame
    · refine hw.changes.imp_right fun ⟨d, hid, hd⟩ => ⟨d, ?_, hd⟩
      rw [hid]
      exact hnew
  · cases hfound : w.deposits.getByTransfer? transfer with
    | none =>
        -- Nothing is done to any deposit, so any identifier will do.
        have hcallback := callback_confined s (w.ids 0) transfer w (by simp [hfound])
        obtain ⟨-, hsame⟩ := run_confined h.sound (callback_safe transfer w) hcallback
          (.refl _ w) hrun
        have hsame : Unchanged w w' ∨ (w.deposits.getByTransfer? transfer).isSome := by
          cases r <;> exact hsame
        simpa [hfound] using hsame
    | some d₀ =>
        have hcallback := callback_confined s d₀.id transfer w (by simp [hfound])
        obtain ⟨hw, -⟩ := run_confined h.sound (callback_safe transfer w) hcallback
          (.refl _ w) hrun
        exact hw.changes.imp_right fun ⟨d, hid, hd⟩ => ⟨d₀, d, rfl, hid, hd⟩
  · exact (run_confined h.sound (fund_safe d₀ w) (fund_confined s d₀ w) (.refl _ w) hrun).1.changes
  · exact
      (run_confined h.sound (cancel_safe id w) (cancel_confined s id w) (.refl _ w) hrun).1.changes

namespace Sample

/-- Another deposit has been taken in, and its transfer has been completed as well. -/
def paired : System :=
  let σ := unpaid.alone .standard (.initiate user account.railAccount amount "another")
  { σ with world := (σ.world.completeTransfer (Rail.Sandbox.idOf (.ofNat 103))).2 }

theorem run_paired : Run .standard { world := world .epoch } paired :=
  run_unpaid.trans ((run_alone _ _).trans (run_disturb (.complete _)))

end Sample

/-- Beside two deposits a third one is taken in, and either of the two is paid in and counted
without the other. -/
theorem sample_keeps_to_one_deposit :
    (∃ d w', Sample.paired.world.deposits.get? d.id = none ∧
        ChangesOnly d Sample.paired.world w' ∧ w'.rail.transfers.length = 3) ∧
      (∃ d w', d.id = .ofNat 102 ∧ ChangesOnly d Sample.paired.world w' ∧
        w'.usages.applied = [.ofNat 102]) ∧
      (∃ d w', d.id = Sample.deposit ∧ ChangesOnly d Sample.paired.world w' ∧
        w'.usages.applied = [Sample.deposit]) ∧
      ∃ e w', Sample.paired.world.run (cancel .standard (.ofNat 102)).run = (.ok (.error e), w') ∧
        (Unchanged Sample.paired.world w' ∨
          ∃ d, d.id = .ofNat 102 ∧ ChangesOnly d Sample.paired.world w') := by
  have hreached : Reached .standard Sample.paired.world :=
    .run (.empty rfl rfl rfl) Sample.run_paired
  obtain ⟨hinitiate, hcallback, hfund, hcancel⟩ := operations_keep_to_one_deposit hreached
  refine ⟨?_, ?_, ?_, ?_⟩
  · obtain ⟨r, hr⟩ : ∃ r, (Sample.paired.world.run (initiate .standard Sample.user
        Sample.account.railAccount Sample.amount "third").run).1 = .ok r := ⟨_, rfl⟩
    rcases hinitiate _ _ _ _ r _ (Prod.ext hr rfl) with hsame | ⟨d, hnew, hd⟩
    · exact absurd hsame.transfers (by decide)
    · exact ⟨d, _, hnew, hd, by decide⟩
  · have hfound : (Sample.paired.world.deposits.getByTransfer?
        (Rail.Sandbox.idOf (.ofNat 103))).map (·.id) = some (.ofNat 102) := by decide
    obtain ⟨r, hr⟩ : ∃ r, (Sample.paired.world.run (callback .standard
        (Rail.Sandbox.idOf (.ofNat 103))).run).1 = .ok r := ⟨_, rfl⟩
    rcases hcallback _ r _ (Prod.ext hr rfl) with hsame | ⟨d₀, d, hd₀, hid, hd⟩
    · exact absurd hsame.usages (by decide)
    · rw [hd₀] at hfound
      exact ⟨d, _, hid.trans (Option.some.inj hfound), hd, by decide⟩
  · obtain ⟨r, hr⟩ : ∃ r, (Sample.paired.world.run
        (fund .standard Sample.copy).run).1 = .ok r := ⟨_, rfl⟩
    rcases hfund _ r _ (Prod.ext hr rfl) with hsame | ⟨d, hid, hd⟩
    · exact absurd hsame.usages (by decide)
    · exact ⟨d, _, hid, hd, by decide⟩
  · obtain ⟨e, he⟩ : ∃ e, (Sample.paired.world.run
        (cancel .standard (.ofNat 102)).run).1 = .ok (.error e) := ⟨_, rfl⟩
    exact ⟨e, _, Prod.ext he rfl, hcancel _ _ _ (Prod.ext he rfl)⟩

end Crossing

end Causeway
