import Causeway.Proofs.Crossing.Effect

/-!
# The operations keep to the rules

Each operation is followed from request to request. What it knows of a deposit is a copy that the
store has held, and that outlasts whatever the others do; so do the references that the brokerage
has given out and the marks of what has been counted.
-/

namespace Causeway.Crossing

open Deposit (Event Status)
open World (Recalls Backs Later)

variable {s : Settings} {w w' : World} {d d₀ : Deposit} {ε α β : Type}

/-! ## Actions that keep to the rules -/

/-- The action keeps to the rules, and `Q` holds of its value. -/
def Safe (t : ExceptT ε Program α) (Q : α → World → Prop) (w : World) : Prop :=
  rules.Yields t Q (fun _ _ => True) w

variable {t : ExceptT ε Program β} {f : β → ExceptT ε Program α} {Q : α → World → Prop}
  {Q' : β → World → Prop}

theorem Safe.mono {t : ExceptT ε Program α} {Q' : α → World → Prop} (h : Safe t Q w)
    (hQ : ∀ a w, Q a w → Q' a w) : Safe t Q' w :=
  Rules.Safe.mono h hQ

theorem Safe.seq (h : Safe t Q' w) (hf : ∀ b w', Later w w' → Q' b w' → Safe (f b) Q w') :
    Safe (t >>= f) Q w :=
  Rules.Safe.seq rules_shared h hf

theorem Safe.pure {a : α} (h : Q a w) : Safe (Pure.pure a : ExceptT ε Program α) Q w :=
  Rules.Safe.pure h

theorem Safe.throw {e : ε} : Safe (MonadExcept.throw e : ExceptT ε Program α) Q w :=
  Rules.Safe.throw

theorem Safe.result {t : Action α} (h : Safe t Q w) :
    Safe t.result (fun r w => ∀ a, r = .ok a → Q a w) w :=
  Rules.Safe.result h

theorem Safe.ofExcept (x : Except Failure α) (w : World) :
    Safe (Action.ofExcept x) (fun a _ => x = .ok a) w :=
  Rules.Safe.ofExcept x w

theorem Safe.orNotFound (entity : Entity) (id : String) (o : Option α) (w : World) :
    Safe (Action.orNotFound entity id o) (fun a _ => o = some a) w :=
  Rules.Safe.orNotFound entity id o w

theorem Safe.unless {c : Prop} [Decidable c] {e : ε} {f : Unit → ExceptT ε Program α}
    (h : ¬ c → Safe (f ()) Q w) :
    Safe (if c then (do let u ← MonadExcept.throw e; f u) else f ()) Q w :=
  Rules.Safe.unless h

theorem keeps_free (r : Request) (h : ∀ w, World.Permits w r) (w : World) :
    rules.Keeps (Program.request r) (fun _ _ => True) w :=
  Rules.Keeps.free r h w

theorem Safe.lift (r : Request) (h : ∀ w, World.Permits w r) (w : World) :
    Safe (liftM (Program.request r) : ExceptT ε Program r.Answer) (fun _ _ => True) w :=
  Rules.Safe.lift r h w

theorem Safe.ask {p : Program (Except Failure α)}
    (h : rules.Keeps p (fun r w => ∀ a, r = .ok a → Q a w) w) : Safe (Action.ask p) Q w :=
  Rules.Safe.ask h

theorem Safe.askFree {p : Program (Except Failure α)} (h : rules.Keeps p (fun _ _ => True) w) :
    Safe (Action.ask p) (fun _ _ => True) w :=
  Rules.Safe.askFree h

theorem Safe.retrying {p : Retry.Policy} {a : Attempt α} {J : World → Prop} (hJ : rules.Stable J)
    (ha : ∀ w, J w → Safe a Q w) (hw : J w) : Safe (Action.retrying p a) Q w :=
  Rules.Safe.retrying rules_shared (fun _ => ⟨trivial, fun _ => trivial⟩) hJ ha hw

/-! ## The stores -/

theorem depositById_safe (id : Uuid) (w : World) :
    Safe (depositById id) (fun o w => ∀ d, o = some d → w.Recalls d) w := by
  refine Safe.ask (Rules.Keeps.request fun w' _ hs => ⟨trivial, fun r hr o ho d hd => ?_⟩)
  subst ho hd
  obtain ⟨hd, hw⟩ := World.look_ok hr
  rw [show (w'.perform (.depositById id)).2 = w' from hw]
  exact hs.recalls hd.symm

theorem depositByTransfer_safe (transfer : String) (w : World) :
    Safe (Action.ask (Program.request (.depositByTransfer transfer)))
      (fun o w => ∀ d, o = some d → w.Recalls d) w := by
  refine Safe.ask (Rules.Keeps.request fun w' _ hs => ⟨trivial, fun r hr o ho d hd => ?_⟩)
  subst ho hd
  obtain ⟨hd, hw⟩ := World.look_ok hr
  rw [show (w'.perform (.depositByTransfer transfer)).2 = w' from hw]
  obtain ⟨id, _, hid⟩ := Option.bind_eq_some_iff.mp hd.symm
  exact hs.recalls hid

theorem accountById_safe (id : Uuid) (w : World) :
    Safe (Action.ask (Program.request (.accountById id)))
      (fun o w => ∀ a, o = some a → w.accounts.get? id = some a) w := by
  refine Safe.ask (Rules.Keeps.request fun w' _ _ => ⟨trivial, fun r hr o ho a ha => ?_⟩)
  subst ho ha
  obtain ⟨ha, hw⟩ := World.look_ok hr
  rw [show (w'.perform (.accountById id)).2 = w' from hw]
  exact ha.symm

theorem depositsIn_safe (status : Status) (w : World) :
    Safe (depositsIn status) (fun ds w => ∀ d ∈ ds, w.Recalls d ∧ d.status = status) w := by
  refine Safe.ask (Rules.Keeps.request fun w' _ hs => ⟨trivial, fun r hr ds hds d hd => ?_⟩)
  subst hds
  obtain ⟨rfl, hw⟩ := World.look_ok hr
  rw [show (w'.perform (.depositsIn status)).2 = w' from hw]
  obtain ⟨hd, hst⟩ := (Store.Deposits.mem_withStatus hs.deposits).mp hd
  exact ⟨hs.recalls hd, hst⟩

theorem mark_safe (d : Deposit) (e : Event) (w : World) :
    Safe (mark d e) (fun d' _ => ∃ now, d.apply e now = .ok d') w :=
  Safe.seq (Safe.lift .now (fun _ => trivial) w) fun now w _ _ =>
    Safe.mono (Safe.ofExcept _ w) fun _ _ hd => ⟨now, hd⟩

theorem backs_later {e : Event} (hw : Later w w') (h : w.Backs d e) : w'.Backs d e := by
  cases e with
  | railInitiated t => trivial
  | railCompleted amount => trivial
  | brokerFunded ref => exact hw.byKey h
  | failed reason => exact h
  | usageRecorded => exact hw.applied h

/-- A copy that an event has moved may be stored, and is recalled once that is done. -/
theorem update_safe {e : Event} {now : Instant} (hd₀ : w.Recalls d₀)
    (ha : d₀.apply e now = .ok d) (hb : w.Backs d₀ e) :
    Safe (update d d₀.status) (fun _ w => w.Recalls d) w := by
  refine Safe.ask (Rules.Keeps.request fun w' hw hs => ⟨?_, fun r hr _ ho => ?_⟩)
  · exact ⟨d₀, e, now, hd₀.later hw, rfl, ha, backs_later hw hb⟩
  · subst ho
    rcases World.updateDeposit_cases hs.race d d₀.status with ⟨_, _, he, _⟩ | ⟨_, hu, he⟩
    · rw [he] at hr; cases hr
    · rw [he]
      exact ⟨d, Store.Deposits.get?_update_self hu, .refl⟩

theorem persist_safe {e : Event} {now : Instant} (hd₀ : w.Recalls d₀)
    (ha : d₀.apply e now = .ok d) (hb : w.Backs d₀ e) :
    Safe (persist d d₀.status) (fun _ _ => True) w := by
  refine Safe.seq (Safe.result (update_safe hd₀ ha hb)) fun r w' _ _ => ?_
  rcases r with e | ⟨⟩
  · cases e <;> trivial
  · trivial

/-! ## Onto the rail -/

theorem receive_safe (e : ε → Failure) (r : Reply (Except ε α)) (w : World) :
    Safe (Attempt.receive e r) (fun a _ => r.answer = .ok a) w :=
  Rules.Safe.receive (fun _ _ => trivial) e r w

theorem createTransfer_safe (o : Rail.Order) (w : World) :
    Safe (Provider.createTransfer o) (fun _ _ => True) w :=
  Safe.seq (Safe.lift (.createTransfer o) (fun _ => trivial) w) fun r w _ _ =>
    Safe.mono (receive_safe _ r w) fun _ _ _ => trivial

theorem listTransfers_safe (limit offset : Nat) (w : World) :
    Safe (Provider.listTransfers limit offset) (fun _ _ => True) w :=
  Safe.seq (Safe.lift (.listTransfers limit offset) (fun _ => trivial) w) fun r w _ _ =>
    Safe.mono (receive_safe _ r w) fun _ _ _ => trivial

theorem convert_safe (p : ProviderSettings) (r : Conversion.Request) (w : World) :
    Safe (Provider.convert p r) (fun _ _ => True) w :=
  Safe.seq (Rules.Safe.attempt _ w) fun _ w _ _ =>
    Safe.seq (createTransfer_safe _ w) fun _ _ _ _ => Safe.pure trivial

theorem searchFrom_safe (pageSize : Nat) (transfer : String) (pages offset : Nat) (w : World) :
    Safe (Provider.searchFrom pageSize transfer pages offset) (fun _ _ => True) w := by
  induction pages generalizing offset w with
  | zero => exact Safe.throw
  | succ pages ih =>
      refine Safe.seq (listTransfers_safe _ _ w) fun page w _ _ => ?_
      cases page.find? (·.id = transfer) with
      | some t => exact Safe.pure trivial
      | none =>
          dsimp only
          split
          · exact Safe.throw
          · exact ih _ w

theorem Safe.retried {p : Retry.Policy} {a : Attempt α} (ha : ∀ w, Safe a (fun _ _ => True) w)
    (w : World) : Safe (Action.retrying p a) (fun _ _ => True) w :=
  Safe.retrying (J := fun _ => True) (fun _ _ _ _ => trivial) (fun w _ => ha w) trivial

theorem startRail_safe (hd : w.Recalls d) (hst : d.status = .created) :
    Safe (startRail s d) (fun _ _ => True) w := by
  refine Safe.seq (Safe.result (Safe.retried (convert_safe _ _) w)) fun r w hw _ => ?_
  replace hd := hd.later hw
  cases r with
  | ok response =>
      refine Safe.seq (mark_safe d _ w) fun d' w hw ⟨now, ha⟩ => ?_
      rw [← hst]
      exact Safe.seq (update_safe (hd.later hw) ha trivial) fun _ _ _ _ => Safe.pure trivial
  | error e =>
      refine Safe.seq (Safe.lift .isAborted (fun _ => trivial) w) fun b w hw _ => ?_
      refine Safe.unless fun _ => ?_
      replace hd := hd.later hw
      refine Safe.seq (mark_safe d _ w) fun d' w hw ⟨now, ha⟩ => ?_
      rw [← hst]
      have hb : w.Backs d (.failed e.message) := by simp [Backs, hst]
      exact Safe.seq (Safe.result (update_safe (hd.later hw) ha hb)) fun _ _ _ _ => Safe.throw

theorem createDeposit_safe (id user account : Uuid) (reference : String) (amount : Amount)
    (currency : String) (now : Instant) (w : World) :
    Safe (Action.ask (Program.request
        (.createDeposit (.start id user account reference amount currency now))))
      (fun _ w => w.Recalls (.start id user account reference amount currency now)) w := by
  refine Safe.ask (Rules.Keeps.request fun w' hw hs => ⟨⟨_, _, _, _, _, _, _, rfl⟩, fun r hr _ ho => ?_⟩)
  subst ho
  rcases World.createDeposit_cases w' (.start id user account reference amount currency now) with
    ⟨_, _, he, _⟩ | ⟨_, hc, he⟩
  · rw [he] at hr; cases hr
  · rw [he]
    refine ⟨_, ?_, .refl⟩
    exact (Store.Deposits.get?_create hc).trans (if_pos rfl)

theorem initiate_safe (user : Uuid) (railAccount : String) (amount : Amount) (reference : String)
    (w : World) : Safe (initiate s user railAccount amount reference) (fun _ _ => True) w := by
  unfold initiate
  dsimp only
  refine Safe.unless fun _ => ?_
  refine Safe.seq (Safe.askFree (keeps_free (.accountByRail railAccount) (fun _ => trivial) w))
    fun found w _ _ => ?_
  refine Safe.seq (Safe.orNotFound _ _ found w) fun account w _ _ => ?_
  refine Safe.unless fun _ => ?_
  refine Safe.seq (Safe.lift .now (fun _ => trivial) w) fun now w _ _ => ?_
  refine Safe.seq (Safe.lift .freshId (fun _ => trivial) w) fun id w _ _ => ?_
  refine Safe.seq (createDeposit_safe _ _ _ _ _ _ _ w) fun _ w _ hd => ?_
  exact startRail_safe hd rfl

theorem initiateForRailAccount_safe (railAccount : String) (amount : Amount) (reference : String)
    (w : World) :
    Safe (initiateForRailAccount s railAccount amount reference) (fun _ _ => True) w := by
  refine Safe.seq (Safe.askFree (keeps_free (.accountByRail railAccount) (fun _ => trivial) w))
    fun found w _ _ => ?_
  refine Safe.seq (Safe.orNotFound _ _ found w) fun account w _ _ => ?_
  exact initiate_safe _ _ _ _ w

/-! ## Into the brokerage -/

theorem applyUsage_safe (hd : w.Recalls d) (hf : d.status = .brokerFunded) :
    Safe (Action.ask (Program.request (.applyUsage d.user d.id d.amount.value)))
      (fun _ w => d.id ∈ w.usages.applied) w := by
  refine Safe.ask (Rules.Keeps.request fun w' hw _ => ⟨?_, fun r hr _ ho => ?_⟩)
  · exact ⟨d, hd.later hw, hf, rfl, rfl, rfl⟩
  · subst ho
    rcases World.applyUsage_cases w' d.user d.id d.amount.value with
      ⟨_, _, he, _⟩ | ⟨_, he⟩
    · rw [he] at hr; cases hr
    · rw [he] at hr ⊢
      exact Store.Usages.mem_applied_of_ok hr

theorem recordUsage_safe (hd : w.Recalls d) (hf : d.status = .brokerFunded) :
    Safe (recordUsage d) (fun _ _ => True) w := by
  refine Safe.seq (applyUsage_safe hd hf) fun _ w hw hm => ?_
  replace hd := hd.later hw
  refine Safe.seq (mark_safe d _ w) fun d' w hw ⟨now, ha⟩ => ?_
  rw [← hf]
  exact Safe.seq (update_safe (hd.later hw) ha (hw.applied hm)) fun _ _ _ _ => Safe.pure trivial

/-- What a deposit has to be paid in, as the one who pays it knows it. -/
def Payable (d : Deposit) (a : VirtualAccount) (w : World) : Prop :=
  w.Recalls d ∧ d.status = .railCompleted ∧ w.accounts.get? d.account = some a

theorem payable_stable (d : Deposit) (a : VirtualAccount) : rules.Stable (Payable d a) :=
  fun _ _ hw ⟨hd, hst, ha⟩ => ⟨hd.later hw, hst, hw.accounts ha⟩

theorem fundAccount_safe {a : VirtualAccount} (h : Payable d a w) :
    Safe (liftM (Program.request (.fundAccount d.id.toText a.brokerageAccount d.settledAmount)) :
        Attempt (Reply (Except Failure String)))
      (fun r w => ∀ ref, r.answer = .ok ref →
        w.brokerage.byKey.get? d.id.toText = some ref) w := by
  refine Rules.Yields.lift (Rules.Keeps.request fun w' hw _ => ⟨?_, fun r hr ref href => ?_⟩)
  · obtain ⟨hd, hst, ha⟩ := payable_stable d a hw h
    exact ⟨d, a, hd, hst, ha, rfl, rfl, rfl⟩
  · rcases World.fundAccount_cases w' d.id.toText a.brokerageAccount d.settledAmount with
      ⟨r', hr', hq, hk⟩ | ⟨_, hr', _, _, _, _, hby⟩
    · rw [hr'] at hr
      cases hr
      rw [hq.byKey]; exact hk _ href
    · rw [hr'] at hr
      cases hr; cases href
      rw [hby, Table.get?_insert_self]

theorem payIn_safe {a : VirtualAccount} (h : Payable d a w) :
    Safe (payIn d.id.toText a.brokerageAccount d.settledAmount)
      (fun ref w => w.brokerage.byKey.get? d.id.toText = some ref) w := by
  refine Safe.seq (fundAccount_safe h) fun r w _ hr => ?_
  have hrec := Rules.Yields.since rules_shared (receive_safe id r w)
  refine Safe.mono (Rules.Yields.mono hrec (fun _ _ h => h) fun _ _ _ => trivial) ?_
  exact fun ref w' ⟨hw, href⟩ => hw.byKey (hr ref href)

theorem fundClaimed_safe (id : Uuid) (w : World) :
    Safe (fundClaimed s id) (fun _ _ => True) w := by
  refine Safe.seq (depositById_safe id w) fun found w _ hfound => ?_
  refine Safe.seq (Safe.orNotFound _ _ found w) fun d w' hw hd => ?_
  replace hd := (hfound d hd).later hw
  refine Safe.unless fun hst => ?_
  replace hst : d.status = .railCompleted := by simpa using hst
  refine Safe.seq (accountById_safe d.account w') fun account w hw haccount => ?_
  replace hd := hd.later hw
  refine Safe.seq (Safe.orNotFound _ _ account w) fun a w' hw ha => ?_
  have hpay : Payable d a w' := ⟨hd.later hw, hst, hw.accounts (haccount a ha)⟩
  refine Safe.seq (Safe.retrying (payable_stable d a) (fun w => payIn_safe) hpay)
    fun ref w hw hkey => ?_
  replace hd := hpay.1.later hw
  refine Safe.seq (mark_safe d _ w) fun d' w hw ⟨now, happ⟩ => ?_
  rw [← hst]
  refine Safe.seq (update_safe (hd.later hw) happ (hw.byKey hkey)) fun _ w _ hd' => ?_
  -- From here on the deposit is funded, and a failure to count it is left to the sweep.
  have hf : d'.status = .brokerFunded := by
    rw [(Deposit.apply_eq_ok_iff.mp happ).2]; rfl
  refine Safe.seq (Safe.result (recordUsage_safe hd' hf)) fun r w _ _ => ?_
  cases r with
  | ok recorded => exact Safe.pure trivial
  | error e => exact Safe.pure trivial

theorem fund_safe (d : Deposit) (w : World) : Safe (fund s d) (fun _ _ => True) w := by
  unfold fund
  dsimp only
  refine Safe.unless fun _ => ?_
  refine Safe.seq (Safe.lift (.claim d.id) (fun _ => trivial) w) fun b w _ _ => ?_
  refine Safe.unless fun _ => ?_
  refine Safe.seq (Safe.result (fundClaimed_safe d.id w)) fun r w _ _ => ?_
  refine Safe.seq (Safe.lift (.release d.id) (fun _ => trivial) w) fun _ w _ _ => ?_
  exact Safe.mono (Safe.ofExcept r w) fun _ _ _ => trivial

/-! ## News from the rail -/

theorem currentOutcome_safe (id : Uuid) (w : World) :
    Safe (currentOutcome id) (fun _ _ => True) w := by
  refine Safe.seq (depositById_safe id w) fun found w _ _ => ?_
  exact Safe.seq (Safe.orNotFound _ _ found w) fun _ _ _ _ => Safe.pure trivial

theorem callback_safe (transfer : String) (w : World) :
    Safe (callback s transfer) (fun _ _ => True) w := by
  refine Safe.seq (depositByTransfer_safe transfer w) fun found w _ hfound => ?_
  cases found with
  | none => exact Safe.pure trivial
  | some d =>
      replace hfound := hfound d rfl
      dsimp only
      split
      · exact Safe.pure trivial
      · rename_i hst
        replace hst : d.status = .railInitiated := by simpa using hst
        refine Safe.seq (Safe.retried (searchFrom_safe _ _ _ _) w) fun response w hw _ => ?_
        replace hfound := hfound.later hw
        split
        · refine Safe.seq (mark_safe d _ w) fun completed w hw ⟨now, ha⟩ => ?_
          refine Safe.seq (persist_safe (hfound.later hw) ha trivial) fun b w _ _ => ?_
          cases b with
          | false => exact currentOutcome_safe d.id w
          | true =>
              refine Safe.seq (Safe.result (fund_safe completed w)) fun r w _ _ => ?_
              cases r with
              | ok funded => exact Safe.pure trivial
              | error e => exact Safe.pure trivial
        · refine Safe.seq (mark_safe d _ w) fun failed w hw ⟨now, ha⟩ => ?_
          refine Safe.seq (persist_safe (hfound.later hw) ha (by simp [Backs, hst])) fun b w _ _ => ?_
          cases b with
          | false => exact currentOutcome_safe d.id w
          | true => exact Safe.pure trivial
        · exact Safe.pure trivial
        · exact Safe.pure trivial

theorem cancel_safe (id : Uuid) (w : World) : Safe (cancel s id) (fun _ _ => True) w := by
  refine Safe.seq (depositById_safe id w) fun found w _ hfound => ?_
  refine Safe.seq (Safe.orNotFound _ _ found w) fun d w _ _ => ?_
  refine Safe.unless fun _ => ?_
  refine Safe.unless fun _ => ?_
  -- The rail never lets a deposit be cancelled, so nothing is written.
  exact Safe.throw

/-! ## The sweep -/

theorem visitAll_keeps {R : Rules} (hR : R.Shared) (hask : ∀ w, R.permits w .isCancelled)
    {visit : Report → Deposit → Program Report} {J : Deposit → World → Prop}
    (hJ : ∀ d, R.Stable (J d))
    (hvisit : ∀ report d w, J d w → R.Keeps (visit report d) (fun _ _ => True) w)
    (report : Report) (ds : List Deposit) (w : World) (hds : ∀ d ∈ ds, J d w) :
    R.Keeps (visitAll visit report ds) (fun _ _ => True) w := by
  induction ds generalizing report w with
  | nil => trivial
  | cons d ds ih =>
      refine Rules.Keeps.seq hR (Rules.Keeps.free .isCancelled hask w) fun b w hw _ => ?_
      replace hds := fun d hd => hJ d hw (hds d hd)
      cases b with
      | true => trivial
      | false =>
          refine Rules.Keeps.seq hR (hvisit report d w (hds d (by simp))) fun report w hw _ => ?_
          exact ih report w fun d hd => hJ d hw (hds d (by simp [hd]))

theorem visitAll_safe {visit : Report → Deposit → Program Report} {J : Deposit → World → Prop}
    (hJ : ∀ d, rules.Stable (J d))
    (hvisit : ∀ report d w, J d w → rules.Keeps (visit report d) (fun _ _ => True) w)
    (report : Report) (ds : List Deposit) (w : World) (hds : ∀ d ∈ ds, J d w) :
    rules.Keeps (visitAll visit report ds) (fun _ _ => True) w :=
  visitAll_keeps rules_shared (fun _ => trivial) hJ hvisit report ds w hds

theorem visitFunding_safe (report : Report) (d : Deposit) (w : World) :
    rules.Keeps (visitFunding s report d) (fun _ _ => True) w := by
  refine Rules.Keeps.seq rules_shared (fund_safe d w) fun r w _ _ => ?_
  cases r with
  | ok d => trivial
  | error e => trivial

theorem visitCreated_safe (now : Instant) (report : Report) (hd : w.Recalls d)
    (hst : d.status = .created) :
    rules.Keeps (visitCreated s now report d) (fun _ _ => True) w := by
  unfold visitCreated
  split
  · trivial
  · refine Rules.Keeps.seq rules_shared (startRail_safe hd hst) fun r w _ _ => ?_
    cases r with
    | ok d => trivial
    | error e => trivial

theorem visitInitiated_safe (report : Report) (d : Deposit) (w : World) :
    rules.Keeps (visitInitiated s report d) (fun _ _ => True) w := by
  unfold visitInitiated
  split
  · trivial
  · refine Rules.Keeps.seq rules_shared (callback_safe _ w) fun r w _ _ => ?_
    split <;> trivial

theorem visitFunded_safe (report : Report) (hd : w.Recalls d) (hf : d.status = .brokerFunded) :
    rules.Keeps (visitFunded report d) (fun _ _ => True) w := by
  refine Rules.Keeps.seq rules_shared (recordUsage_safe hd hf) fun r w _ _ => ?_
  cases r with
  | ok d => trivial
  | error e => trivial

theorem recalls_at_stable (status : Status) (d : Deposit) :
    rules.Stable fun w => w.Recalls d ∧ d.status = status :=
  fun _ _ hw ⟨hd, hst⟩ => ⟨hd.later hw, hst⟩

theorem sweep_safe (now : Instant) (w : World) : Safe (sweep s now) (fun _ _ => True) w := by
  refine Safe.seq (depositsIn_safe .railCompleted w) fun ds w _ _ => ?_
  refine Safe.seq (Rules.Yields.lift (visitAll_safe (J := fun _ _ => True) (fun _ _ _ _ _ => trivial)
    (fun report d w _ => visitFunding_safe report d w) {} ds w fun _ _ => trivial))
    fun ⟨report, whole⟩ w _ _ => ?_
  cases whole with
  | false => exact Safe.pure trivial
  | true =>
      refine Safe.seq (depositsIn_safe .created w) fun ds w _ hds => ?_
      refine Safe.seq (Rules.Yields.lift (visitAll_safe (recalls_at_stable .created)
        (fun report d w h => visitCreated_safe now report h.1 h.2) report ds w hds))
        fun ⟨report, whole⟩ w _ _ => ?_
      cases whole with
      | false => exact Safe.pure trivial
      | true =>
          refine Safe.seq (depositsIn_safe .railInitiated w) fun ds w _ _ => ?_
          refine Safe.seq (Rules.Yields.lift (visitAll_safe (J := fun _ _ => True)
            (fun _ _ _ _ _ => trivial) (fun report d w _ => visitInitiated_safe report d w)
            report ds w fun _ _ => trivial)) fun ⟨report, whole⟩ w _ _ => ?_
          cases whole with
          | false => exact Safe.pure trivial
          | true =>
              refine Safe.seq (depositsIn_safe .brokerFunded w) fun ds w _ hds => ?_
              refine Safe.seq (Rules.Yields.lift (visitAll_safe (recalls_at_stable .brokerFunded)
                (fun report d w h => visitFunded_safe report h.1 h.2) report _ w ?_))
                fun _ _ _ _ => Safe.pure trivial
              exact fun d hd => hds d (List.mem_filter.mp hd).1

/-! ## Deliveries -/

theorem orMalformed_safe (o : Option α) (w : World) :
    Safe (Webhook.orMalformed o) (fun _ _ => True) w := by
  cases o with
  | some a => trivial
  | none => trivial

theorem onDeposit_safe (data : Json) (w : World) :
    Safe (Webhook.onDeposit s data) (fun _ _ => True) w := by
  refine Safe.seq (orMalformed_safe _ w) fun e w _ _ => ?_
  refine Safe.seq (Safe.result (initiateForRailAccount_safe e.account e.amount e.reference w))
    fun r w _ _ => ?_
  split
  · exact Safe.pure trivial
  · exact Safe.pure trivial
  · exact Safe.throw

theorem deliver_safe (body : Bytes) (signature : String) (w : World) :
    Safe (Webhook.deliver s body signature) (fun _ _ => True) w := by
  refine Safe.seq (Safe.ofExcept _ w) fun _ w _ _ => ?_
  refine Safe.seq (orMalformed_safe _ w) fun e w _ _ => ?_
  split
  · refine Safe.seq (orMalformed_safe _ w) fun e w _ _ => ?_
    exact Safe.seq (callback_safe e.id w) fun _ _ _ _ => Safe.pure trivial
  · split
    · exact onDeposit_safe e.data w
    · exact Safe.pure trivial

/-! ## All operations -/

theorem program_keeps (op : Operation) (w : World) :
    rules.Keeps (op.program s) (fun _ _ => True) w := by
  cases op with
  | initiate user railAccount amount reference =>
      exact .map (.mono (initiate_safe _ _ _ _ w) fun _ _ _ => trivial)
  | initiateForRailAccount railAccount amount reference =>
      exact .map (.mono (initiateForRailAccount_safe _ _ _ w) fun _ _ _ => trivial)
  | callback transfer => exact .map (.mono (callback_safe _ w) fun _ _ _ => trivial)
  | fund d => exact .map (.mono (fund_safe d w) fun _ _ _ => trivial)
  | cancel id => exact .map (.mono (cancel_safe id w) fun _ _ _ => trivial)
  | sweep now => exact .map (.mono (sweep_safe now w) fun _ _ _ => trivial)
  | deliver body signature => exact .map (.mono (deliver_safe _ _ w) fun _ _ _ => trivial)

/-! ## All runs -/

variable {σ σ' : System}

/-- The world is sound and every operation in it goes on keeping to the rules. -/
structure System.Orderly (σ : System) : Prop where
  sound : σ.world.Sound
  obeys : σ.Obeys rules

theorem System.orderly_of_idle {w : World} (hw : w.Sound) : System.Orderly { world := w } :=
  ⟨hw, fun _ ha => nomatch ha⟩

theorem Step.orderly (h : Step s σ σ') (ho : σ.Orderly) : σ'.Orderly := by
  refine ⟨(h.effect ho.sound ho.obeys).sound ho.sound, ?_⟩
  cases h with
  | start op => exact ho.obeys.start (program_keeps op _)
  | turn hr => exact ho.obeys.turn rules_shared hr ho.sound
  | disturb hd => exact ho.obeys.disturb ((World.Effect.quiet hd.quiet).later ho.sound)

theorem Run.orderly (h : Run s σ σ') (ho : σ.Orderly) : σ'.Orderly := by
  induction h with
  | refl => exact ho
  | tail _ h ih => exact h.orderly ih

/-- What every effect preserves in a sound world holds throughout every run. -/
theorem Run.invariant {I : World → Prop} (h : Run s σ σ') (ho : σ.Orderly)
    (hstep : ∀ w w', w.Sound → World.Effect w w' → I w → I w') (hw : I σ.world) :
    I σ'.world := by
  induction h with
  | refl => exact hw
  | tail hrun h ih =>
      have ho' := Run.orderly hrun ho
      exact hstep _ _ ho'.sound (h.effect ho'.sound ho'.obeys) ih

theorem Run.later (h : Run s σ σ') (ho : σ.Orderly) : Later σ.world σ'.world :=
  h.invariant ho (fun _ _ hs he hw => hw.trans (he.later hs)) (.refl _)

theorem Run.history_sound {w : World} (h : Run s { world := w } σ) (hw : w.Sound) :
    ∀ x ∈ σ.history, x.before.Sound := by
  induction h with
  | refl => exact fun x hx => nomatch hx
  | @tail σ σ' hrun hstep ih =>
      have ho := Run.orderly hrun (System.orderly_of_idle hw)
      cases hstep with
      | start op => exact ih
      | disturb hd => exact ih
      | turn hr =>
          intro x hx
          rcases List.mem_cons.mp hx with rfl | hx
          · exact ho.sound
          · exact ih x hx

end Causeway.Crossing
