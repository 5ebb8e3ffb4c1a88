import Causeway.Proofs.Crossing.Claims

/-!
# Programs under a discipline

A discipline says what a program may ask for while it holds a claim, or none, provided that its
requests are answered in a certain way. A program is balanced if at its end it holds what it held at
its beginning (`Discipline.Balanced`). A discipline under which every abort is due lets no attempt
be made (`binds_retrying`).
-/

namespace Causeway

open Crossing (Still)

structure Discipline where
  answers : (r : Request) → r.Answer → Prop
  allows : Option Uuid → Request → Prop

namespace Discipline

variable {D D' : Discipline} {held : Option Uuid} {ε α β : Type}

/-- With this claim, the program asks only for what it may, and `Q` holds in the end of the claim
that it holds then. -/
def Binds (D : Discipline) (held : Option Uuid) : Program α → (Option Uuid → α → Prop) → Prop
  | .done a, Q => Q held a
  | .call r k, Q => D.allows held r ∧ ∀ a, D.answers r a → D.Binds (holding held r a) (k a) Q
  | .crash _, _ => held = none

abbrev Balanced (D : Discipline) (held : Option Uuid) (p : Program α) : Prop :=
  D.Binds held p (Still held)

/-! ## Programs -/

theorem Binds.mono {p : Program α} {Q Q' : Option Uuid → α → Prop} (h : D.Binds held p Q)
    (hQ : ∀ held a, Q held a → Q' held a) : D.Binds held p Q' := by
  induction p generalizing held with
  | done a => exact hQ held a h
  | call r k ih => exact ⟨h.1, fun a ha => ih a (h.2 a ha)⟩
  | crash o => exact h

/-- A discipline that expects less and allows more binds the program as well. -/
theorem Binds.weaken {p : Program α} {Q : Option Uuid → α → Prop} (h : D.Binds held p Q)
    (hanswers : ∀ r a, D'.answers r a → D.answers r a)
    (hallows : ∀ held r, D.allows held r → D'.allows held r) : D'.Binds held p Q := by
  induction p generalizing held with
  | done a => exact h
  | call r k ih => exact ⟨hallows held r h.1, fun a ha => ih a (h.2 a (hanswers r a ha))⟩
  | crash o => exact h

theorem Binds.bind {p : Program β} {f : β → Program α} {Q : Option Uuid → α → Prop}
    (h : D.Binds held p fun held b => D.Binds held (f b) Q) : D.Binds held (p >>= f) Q := by
  induction p generalizing held with
  | done b => exact h
  | call r k ih => exact ⟨h.1, fun a ha => ih a (h.2 a ha)⟩
  | crash o => exact h

theorem Balanced.bind {p : Program β} {f : β → Program α} {Q : Option Uuid → α → Prop}
    (h : D.Balanced held p) (hf : ∀ b, D.Binds held (f b) Q) : D.Binds held (p >>= f) Q := by
  refine Binds.bind (h.mono ?_)
  rintro _ b rfl
  exact hf b

/-- A request that has nothing to do with claims. -/
theorem balanced_request {r : Request} (h : D.allows held r)
    (hclaims : ∀ a, holding held r a = held) : D.Balanced held (Program.request r) :=
  ⟨h, fun a _ => hclaims a⟩

/-! ## Programs that may fail -/

variable {t : ExceptT ε Program β} {f : β → ExceptT ε Program α}

theorem Balanced.seq (ht : D.Balanced held t.run) (hf : ∀ b, D.Balanced held (f b).run) :
    D.Balanced held (t >>= f).run := by
  refine Balanced.bind ht fun r => ?_
  cases r with
  | ok b => exact hf b
  | error e => exact rfl

theorem Balanced.lift {p : Program β} (h : D.Balanced held p) :
    D.Balanced held (liftM p : ExceptT ε Program β).run :=
  Balanced.bind h fun _ => rfl

theorem Balanced.result {t : Action β} (h : D.Balanced held t.run) :
    D.Balanced held t.result.run :=
  Balanced.bind h fun _ => rfl

/-- What takes up an action's result is gone on with whatever the result is. -/
theorem Binds.resume {t : Action β} {f : Except Failure β → Action α}
    {Q : Option Uuid → Except Failure α → Prop}
    (h : D.Binds held t.run fun held r => D.Binds held (f r).run Q) :
    D.Binds held (t.result >>= f).run Q :=
  Binds.bind (Binds.bind h)

theorem balanced_orNotFound (entity : Entity) (name : String) (o : Option α) :
    D.Balanced held (Action.orNotFound entity name o).run := by
  cases o <;> exact rfl

/-- A check that stops the action. -/
theorem Balanced.unless {c : Prop} [Decidable c] {e : ε} {g : Unit → ExceptT ε Program α}
    (h : D.Balanced held (g ()).run) :
    D.Balanced held (if c then (do let u ← MonadExcept.throw e; g u) else g ()).run := by
  split
  · exact rfl
  · exact h

/-- Where every abort is due, an action is cancelled before its first attempt. -/
theorem binds_retrying (hallows : D.allows held .isAborted)
    (hdue : ∀ a, D.answers .isAborted a → a = true) (p : Retry.Policy) (a : Attempt α) :
    D.Binds held (Action.retrying p a).run fun held' r =>
      held' = held ∧ r = .error .cancelled := by
  unfold Action.retrying
  obtain ⟨next, hnext⟩ := Retry.exists_attempts_eq Program.host p.delayFor Failure.isRetryable
    .cancelled (fun _ => a.ending) p.retries 0 none
  rw [hnext]
  refine ⟨hallows, fun aborted ha => ?_⟩
  obtain rfl := hdue aborted ha
  exact ⟨rfl, rfl⟩

/-! ## The sweep -/

section Sweep

open Crossing

variable {s : Settings} {visit : Report → Deposit → Program Report}

theorem balanced_visitAll (hask : D.allows held .isCancelled)
    (hvisit : ∀ report d, D.Balanced held (visit report d)) (report : Report) (ds : List Deposit) :
    D.Balanced held (visitAll visit report ds) := by
  induction ds generalizing report with
  | nil => exact rfl
  | cons d ds ih =>
      refine Balanced.bind (balanced_request hask fun _ => rfl) fun cancelled => ?_
      cases cancelled with
      | true => exact rfl
      | false => exact (hvisit report d).bind fun report => ih report

/-- A sweep is as disciplined as its visits are. -/
theorem balanced_sweep (hlist : ∀ status, D.allows none (.depositsIn status))
    (hfunding : ∀ report ds, D.Balanced none (visitAll (visitFunding s) report ds))
    (hcreated : ∀ now report ds, D.Balanced none (visitAll (visitCreated s now) report ds))
    (hinitiated : ∀ report ds, D.Balanced none (visitAll (visitInitiated s) report ds))
    (hfunded : ∀ report ds, D.Balanced none (visitAll visitFunded report ds)) (now : Instant) :
    D.Balanced none (sweep s now).run := by
  have hphase {visit : Report → Deposit → Program Report} {f : Report × Bool → Action Report}
      {report : Report} (status : Deposit.Status)
      (hvisit : ∀ report ds, D.Balanced none (visitAll visit report ds))
      (hf : ∀ report, D.Balanced none (f (report, true)).run)
      (hstop : ∀ report, D.Balanced none (f (report, false)).run) :
      D.Balanced none
        (depositsIn status >>= fun ds => liftM (visitAll visit report ds) >>= f).run := by
    refine Balanced.seq (balanced_request (hlist status) fun _ => rfl) fun ds => ?_
    refine Balanced.seq (Balanced.lift (hvisit report ds)) fun out => ?_
    obtain ⟨report, whole⟩ := out
    cases whole with
    | true => exact hf report
    | false => exact hstop report
  refine hphase .railCompleted hfunding (fun report => ?_) fun _ => rfl
  refine hphase .created (hcreated now) (fun report => ?_) fun _ => rfl
  refine hphase .railInitiated hinitiated (fun report => ?_) fun _ => rfl
  refine Balanced.seq (balanced_request (hlist .brokerFunded) fun _ => rfl) fun ds => ?_
  exact Balanced.seq (Balanced.lift (hfunded report _)) fun _ => rfl

end Sweep

end Discipline

end Causeway
