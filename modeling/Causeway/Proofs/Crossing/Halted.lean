import Causeway.Proofs.Crossing.Discipline
import Causeway.Proofs.World.Spared

/-!
# Operations that find an abort due

While an abort is due, an operation that is not a sweep looks things up, begins a deposit at most
and gives its claim back (`program_modest`). A sweep besides counts and marks deposits that are
funded, and writes them as they are stored (`sweep_harmless`). Once the token is cancelled it does
not even that, but lists deposits until it finds one to visit (`sweep_idle`).
-/

namespace Causeway.Crossing

open Deposit (Status)
open Discipline
open World (Spared Harmless)

variable {s : Settings} {w : World} {d : Deposit} {held : Option Uuid} {α : Type}

/-! ## Disciplines -/

/-- Whoever asks is told that an abort is due. -/
def Due : (r : Request) → r.Answer → Prop
  | .isAborted, a => a = true
  | _, _ => True

/-- Whoever asks is told that the token is cancelled. -/
def Revoked : (r : Request) → r.Answer → Prop
  | .isCancelled, a => a = true
  | _, _ => True

/-- What may be asked for without calling anyone, writing a deposit or counting one. -/
def Modest (held : Option Uuid) : Request → Prop
  | .now | .freshId | .isAborted | .isCancelled => True
  | .depositById _ | .depositByTransfer _ | .depositsIn _ => True
  | .accountByRail _ | .accountById _ => True
  | .createDeposit d => d.status = .created
  | .claim _ => held = none
  | .release id => held = some id
  | _ => False

/-- One claim is held at a time, and nothing is counted while there is one. -/
def Careful (held : Option Uuid) : Request → Prop
  | .claim _ => held = none
  | .release id => held = some id
  | .incrementUsage _ _ _ | .applyUsage _ _ _ => held = none
  | _ => True

def Lists : Request → Prop
  | .depositsIn _ | .isCancelled => True
  | _ => False

def modest : Discipline := ⟨Due, Modest⟩

def careful : Discipline := ⟨Due, Careful⟩

def idle : Discipline := ⟨Revoked, fun _ => Lists⟩

theorem Modest.careful {r : Request} (h : Modest held r) : Careful held r := by
  cases r with
  | claim id => exact h
  | release id => exact h
  | incrementUsage _ _ _ | applyUsage _ _ _ => exact h.elim
  | _ => trivial

theorem Modest.harmless {r : Request} (h : Modest held r) (w : World) : w.Harmless r := by
  cases r with
  | createDeposit d => exact h
  | createTransfer _ | listTransfers _ _ | fundAccount _ _ _ | updateDeposit _ _ => exact h.elim
  | _ => trivial

theorem careful_of_modest {p : Program α} (h : modest.Balanced held p) :
    careful.Balanced held p :=
  Binds.weaken h (fun _ _ ha => ha) fun _ _ hr => hr.careful

/-! ## All operations but the sweep -/

theorem retrying_modest (p : Retry.Policy) (a : Attempt α) :
    modest.Binds held (Action.retrying p a).run fun held' r =>
      held' = held ∧ r = .error .cancelled :=
  binds_retrying trivial (fun _ h => h) p a

/-- What comes after an action that is to be tried is not reached. -/
theorem balanced_seq_retrying {β : Type} (p : Retry.Policy) (a : Attempt β) (f : β → Action α) :
    modest.Balanced held (Action.retrying p a >>= f).run := by
  refine Binds.bind ((retrying_modest p a).mono ?_)
  rintro _ _ ⟨rfl, rfl⟩
  exact rfl

/-- An order is cancelled, so it tells nothing of the deposit, which is left as it is. -/
theorem startRail_modest (s : Settings) (d : Deposit) :
    modest.Balanced held (startRail s d).run := by
  refine Binds.resume ((retrying_modest _ _).mono ?_)
  rintro _ _ ⟨rfl, rfl⟩
  exact Balanced.seq (Balanced.lift (balanced_request trivial fun _ => rfl)) fun _ => rfl

theorem initiate_modest (user : Uuid) (railAccount : String) (amount : Amount)
    (reference : String) :
    modest.Balanced none (initiate s user railAccount amount reference).run := by
  unfold initiate
  dsimp only
  refine Balanced.unless ?_
  refine Balanced.seq (balanced_request trivial fun _ => rfl) fun found => ?_
  refine Balanced.seq (balanced_orNotFound _ _ found) fun account => ?_
  refine Balanced.unless ?_
  refine Balanced.seq (Balanced.lift (balanced_request trivial fun _ => rfl)) fun now => ?_
  refine Balanced.seq (Balanced.lift (balanced_request trivial fun _ => rfl)) fun id => ?_
  refine Balanced.seq (balanced_request rfl fun _ => rfl) fun _ => ?_
  exact startRail_modest s _

theorem initiateForRailAccount_modest (railAccount : String) (amount : Amount)
    (reference : String) :
    modest.Balanced none (initiateForRailAccount s railAccount amount reference).run := by
  refine Balanced.seq (balanced_request trivial fun _ => rfl) fun found => ?_
  refine Balanced.seq (balanced_orNotFound _ _ found) fun account => ?_
  exact initiate_modest _ _ _ _

theorem fundClaimed_modest (s : Settings) (id : Uuid) :
    modest.Balanced held (fundClaimed s id).run := by
  refine Balanced.seq (balanced_request trivial fun _ => rfl) fun found => ?_
  refine Balanced.seq (balanced_orNotFound _ _ found) fun d => ?_
  refine Balanced.unless ?_
  refine Balanced.seq (balanced_request trivial fun _ => rfl) fun account => ?_
  refine Balanced.seq (balanced_orNotFound _ _ account) fun account => ?_
  exact balanced_seq_retrying _ _ _

theorem fund_modest (s : Settings) (d : Deposit) : modest.Balanced none (fund s d).run := by
  unfold fund
  dsimp only
  refine Balanced.unless ?_
  refine Binds.bind (Binds.bind ⟨rfl, fun claimed _ => ?_⟩)
  cases claimed with
  | false => exact rfl
  | true =>
      refine Binds.resume ((fundClaimed_modest s d.id).mono ?_)
      rintro _ r rfl
      exact Binds.bind (Binds.bind ⟨rfl, fun _ _ => rfl⟩)

/-- A callback that finds its deposit on the rail cannot ask the provider. -/
theorem callback_modest (s : Settings) (transfer : String) :
    modest.Balanced none (callback s transfer).run := by
  refine Balanced.seq (balanced_request trivial fun _ => rfl) fun found => ?_
  cases found with
  | none => exact rfl
  | some d =>
      dsimp only
      split
      · exact rfl
      · exact balanced_seq_retrying _ _ _

theorem cancel_modest (s : Settings) (id : Uuid) : modest.Balanced none (cancel s id).run := by
  refine Balanced.seq (balanced_request trivial fun _ => rfl) fun found => ?_
  refine Balanced.seq (balanced_orNotFound _ _ found) fun d => ?_
  -- The rail lets no transfer be called back, so nothing is written.
  exact Balanced.unless (Balanced.unless rfl)

theorem deliver_modest (s : Settings) (body : Bytes) (signature : String) :
    modest.Balanced none (Webhook.deliver s body signature).run := by
  have hread {γ : Type} (o : Option γ) : modest.Balanced none (Webhook.orMalformed o).run := by
    cases o <;> exact rfl
  have hverified : modest.Balanced none
      (Action.ofExcept (Webhook.verify s.webhookSecret body signature)).run := rfl
  refine Balanced.seq hverified fun _ => ?_
  refine Balanced.seq (hread _) fun e => ?_
  split
  · refine Balanced.seq (hread _) fun e => ?_
    exact Balanced.seq (callback_modest s e.id) fun _ => rfl
  · split
    · refine Balanced.seq (hread _) fun e => ?_
      refine Balanced.seq (initiateForRailAccount_modest e.account e.amount e.reference).result
        fun r => ?_
      split <;> exact rfl
    · exact rfl

theorem program_modest (s : Settings) {op : Operation} (h : ∀ now, op ≠ .sweep now) :
    modest.Balanced none (op.program s) := by
  cases op with
  | initiate user railAccount amount reference =>
      exact (initiate_modest user railAccount amount reference).bind fun _ => rfl
  | initiateForRailAccount railAccount amount reference =>
      exact (initiateForRailAccount_modest railAccount amount reference).bind fun _ => rfl
  | callback transfer => exact (callback_modest s transfer).bind fun _ => rfl
  | fund d => exact (fund_modest s d).bind fun _ => rfl
  | cancel id => exact (cancel_modest s id).bind fun _ => rfl
  | sweep now => exact absurd rfl (h now)
  | deliver body signature => exact (deliver_modest s body signature).bind fun _ => rfl

/-! ## The sweep -/

theorem visitFunding_modest (s : Settings) (report : Report) (d : Deposit) :
    modest.Balanced none (visitFunding s report d) := by
  refine Balanced.bind (fund_modest s d) fun r => ?_
  cases r <;> exact rfl

theorem visitCreated_modest (s : Settings) (now : Instant) (report : Report) (d : Deposit) :
    modest.Balanced none (visitCreated s now report d) := by
  unfold visitCreated
  split
  · exact rfl
  · refine Balanced.bind (startRail_modest s d) fun r => ?_
    cases r <;> exact rfl

theorem visitInitiated_modest (s : Settings) (report : Report) (d : Deposit) :
    modest.Balanced none (visitInitiated s report d) := by
  unfold visitInitiated
  split
  · exact rfl
  · refine Balanced.bind (callback_modest s _) fun r => ?_
    split <;> exact rfl

theorem visitFunded_careful (report : Report) (d : Deposit) :
    careful.Balanced none (visitFunded report d) := by
  have hrecord : careful.Balanced none (recordUsage d).run := by
    refine Balanced.seq (balanced_request rfl fun _ => rfl) fun _ => ?_
    have hmark : careful.Balanced none (mark d .usageRecorded).run :=
      Balanced.seq (Balanced.lift (balanced_request trivial fun _ => rfl)) fun _ => rfl
    refine Balanced.seq hmark fun d' => ?_
    exact Balanced.seq (balanced_request trivial fun _ => rfl) fun _ => rfl
  refine Balanced.bind hrecord fun r => ?_
  cases r <;> exact rfl

theorem program_careful (s : Settings) (op : Operation) :
    careful.Balanced none (op.program s) := by
  by_cases h : ∀ now, op ≠ .sweep now
  · exact careful_of_modest (program_modest s h)
  · obtain ⟨now, rfl⟩ : ∃ now, op = .sweep now := by simpa using h
    have hvisits {visit : Report → Deposit → Program Report}
        (hvisit : ∀ report d, modest.Balanced none (visit report d)) (report : Report)
        (ds : List Deposit) : careful.Balanced none (visitAll visit report ds) :=
      careful_of_modest (balanced_visitAll trivial hvisit report ds)
    refine Balanced.bind (balanced_sweep (fun _ => trivial) (hvisits (visitFunding_modest s))
      (fun now => hvisits (visitCreated_modest s now)) (hvisits (visitInitiated_modest s))
      (fun report ds => ?_) now) fun _ => rfl
    exact balanced_visitAll trivial visitFunded_careful report ds

/-- With the token cancelled, no deposit is visited. -/
theorem sweep_idle (s : Settings) (now : Instant) :
    idle.Balanced none ((Operation.sweep now).program s) := by
  have hvisits {visit : Report → Deposit → Program Report} (report : Report) (ds : List Deposit) :
      idle.Balanced none (visitAll visit report ds) := by
    cases ds with
    | nil => exact rfl
    | cons d ds =>
        refine ⟨trivial, fun cancelled h => ?_⟩
        obtain rfl : cancelled = true := h
        exact rfl
  exact Balanced.bind (balanced_sweep (fun _ => trivial) hvisits (fun _ => hvisits) hvisits hvisits
    now) fun _ => rfl

/-! ## What is written -/

/-- An abort is due at each request, and all that the others do is harmless. -/
def halted : Rules where
  assumes w _ := w.timer.aborted ∧ w.deposits.Keyed
  rely := Spared
  permits := Harmless
  refl := Spared.refl
  trans := Spared.trans

theorem halted_shared : halted.Shared := fun _ _ _ h => h.spared

theorem due_of_aborted (hw : w.timer.aborted) {r : Request} {a : r.Answer}
    (ha : (w.perform r).1 = .ok a) : Due r a := by
  cases r with
  | isAborted =>
      cases ha
      exact hw
  | _ => trivial

theorem keeps_of_modest {p : Program α} {Q : Option Uuid → α → Prop} (h : modest.Binds held p Q)
    (w : World) : halted.Keeps p (fun _ _ => True) w := by
  induction p generalizing held w with
  | done a => trivial
  | call r k ih =>
      intro w' _ hw
      exact ⟨h.1.harmless w', fun a ha => ih a (h.2 a (due_of_aborted hw.1 ha)) _⟩
  | crash o => trivial

theorem mirrors_stable (d : Deposit) :
    halted.Stable fun w => w.Mirrors d ∧ d.status = .brokerFunded :=
  fun _ _ hw ⟨hd, hst⟩ => ⟨hd.spared hw, hst⟩

/-- What counts a funded deposit writes it as it is stored. -/
theorem recordUsage_harmless (hd : w.Mirrors d) (hst : d.status = .brokerFunded) :
    halted.Safe (recordUsage d) (fun _ _ => True) w := by
  refine Rules.Safe.seq halted_shared (Rules.Safe.askFree (Rules.Keeps.free _ (fun _ => trivial) w))
    fun _ w hw _ => ?_
  replace hd := hd.spared hw
  have hmark : halted.Safe (mark d .usageRecorded)
      (fun d' _ => ∃ now, d.apply .usageRecorded now = .ok d') w :=
    Rules.Safe.seq halted_shared (Rules.Safe.lift .now (fun _ => trivial) w) fun now w _ _ =>
      Rules.Safe.mono (Rules.Safe.ofExcept _ w) fun _ _ ha => ⟨now, ha⟩
  refine Rules.Safe.seq halted_shared hmark fun d' w hw ⟨now, ha⟩ => ?_
  obtain ⟨cur, hcur, hstands⟩ := hd.spared hw
  have hid : d'.id = d.id := congrArg Deposit.Origin.id (Deposit.origin_of_apply ha)
  have hstands' := Deposit.standing_of_usageRecorded ha
  have hd' : w.Mirrors d' := ⟨cur, by rw [hid]; exact hcur, hstands.trans hstands'.symm⟩
  have hst' : d'.status = .brokerFunded := (Deposit.status_of_standing hstands').trans hst
  have hupdate : halted.Safe (update d' .brokerFunded) (fun _ _ => True) w :=
    Rules.Safe.askFree (Rules.Keeps.request fun _ hw _ =>
      ⟨⟨hd'.spared hw, hst'⟩, fun _ _ => trivial⟩)
  exact Rules.Safe.seq halted_shared hupdate fun _ _ _ _ => Rules.Safe.pure trivial

theorem visitFunded_harmless (report : Report) (hd : w.Mirrors d ∧ d.status = .brokerFunded) :
    halted.Keeps (visitFunded report d) (fun _ _ => True) w := by
  refine Rules.Keeps.seq halted_shared (recordUsage_harmless hd.1 hd.2) fun r w _ _ => ?_
  cases r <;> trivial

/-- What is listed is listed as it is stored. -/
theorem depositsIn_halted (status : Status) (w : World) :
    halted.Safe (depositsIn status) (fun ds w => ∀ d ∈ ds, w.Mirrors d ∧ d.status = status) w := by
  refine Rules.Safe.ask (Rules.Keeps.request fun w' _ hw => ⟨trivial, fun r hr ds hds d hd => ?_⟩)
  subst hds
  obtain ⟨rfl, hsame⟩ := World.look_ok hr
  rw [show (w'.perform (.depositsIn status)).2 = w' from hsame]
  obtain ⟨hstored, hst⟩ := hw.2.mem_withStatus.mp hd
  exact ⟨⟨d, hstored, rfl⟩, hst⟩

theorem phase_harmless {visit : Report → Deposit → Program Report} {status : Status}
    {report : Report} {next : Report × Bool → Action Report}
    (hvisit : ∀ report d, modest.Balanced none (visit report d))
    (hnext : ∀ report w, halted.Safe (next (report, true)) (fun _ _ => True) w)
    (hstop : ∀ report w, halted.Safe (next (report, false)) (fun _ _ => True) w) (w : World) :
    halted.Safe (depositsIn status >>= fun ds => liftM (visitAll visit report ds) >>= next)
      (fun _ _ => True) w := by
  refine Rules.Safe.seq halted_shared (depositsIn_halted status w) fun ds w _ _ => ?_
  have hvisits := keeps_of_modest (balanced_visitAll trivial hvisit report ds) w
  refine Rules.Safe.seq halted_shared (Rules.Yields.lift hvisits) fun out w _ _ => ?_
  obtain ⟨report, whole⟩ := out
  cases whole with
  | true => exact hnext report w
  | false => exact hstop report w

theorem sweep_harmless (now : Instant) (w : World) :
    halted.Safe (sweep s now) (fun _ _ => True) w := by
  have hdone : ∀ (report : Report) w,
      halted.Safe (pure report : Action Report) (fun _ _ => True) w :=
    fun _ _ => Rules.Safe.pure trivial
  refine phase_harmless (visitFunding_modest s) (fun report w => ?_) hdone w
  refine phase_harmless (visitCreated_modest s now) (fun report w => ?_) hdone w
  refine phase_harmless (visitInitiated_modest s) (fun report w => ?_) hdone w
  refine Rules.Safe.seq halted_shared (depositsIn_halted .brokerFunded w) fun ds w _ hds => ?_
  have hvisits := visitAll_keeps halted_shared (fun _ => trivial) mirrors_stable
    (fun report d w => visitFunded_harmless report) report (ds.filter (·.usageRecordedAt.isNone)) w
    fun d hd => hds d (List.mem_filter.mp hd).1
  exact Rules.Safe.seq halted_shared (Rules.Yields.lift hvisits) fun out w _ _ => hdone out.1 w

theorem program_harmless (s : Settings) (op : Operation) (w : World) :
    halted.Keeps (op.program s) (fun _ _ => True) w := by
  by_cases h : ∀ now, op ≠ .sweep now
  · exact keeps_of_modest (program_modest s h) w
  · obtain ⟨now, rfl⟩ : ∃ now, op = .sweep now := by simpa using h
    exact Rules.Keeps.map (Rules.Keeps.mono (sweep_harmless now w) fun _ _ _ => trivial)

end Causeway.Crossing
