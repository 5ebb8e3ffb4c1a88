import Causeway.Proofs.Crossing.Course

/-!
# Programs that call back

A callback is begun on its own, for a delivery or within a sweep. Nothing that an operation does
between its callbacks looks up a transfer or writes a deposit that is on the rail (`Calling`).
-/

namespace Causeway.Crossing

open Deposit (Event Status)
open Program (Only)

variable {s : Settings} {α β ε : Type} {r : Request}

/-- What is asked for between two callbacks. -/
def Between : Request → Prop
  | .depositByTransfer _ => False
  | .updateDeposit _ expected => expected ≠ .railInitiated
  | _ => True

/-- The program asks for what may be asked for between callbacks, and makes callbacks as a whole. -/
inductive Calling (s : Settings) {α : Type} : Program α → Prop where
  | done (a : α) : Calling s (.done a)
  | crash (o : Overflow) : Calling s (.crash o)
  | call {r : Request} {k : r.Answer → Program α} (hr : Between r) (hk : ∀ a, Calling s (k a)) :
      Calling s (.call r k)
  | callback {transfer : String} {f : Except Failure CallbackOutcome → Program α}
      (hf : ∀ r, Calling s (f r)) : Calling s ((callback s transfer).run >>= f)

theorem Calling.of_call {k : r.Answer → Program α} (h : Calling s (.call r k)) :
    (Between r ∧ ∀ a, Calling s (k a)) ∨ ∃ transfer f,
      .call r k = (Crossing.callback s transfer).run >>= f ∧ ∀ res, Calling s (f res) := by
  generalize hp : Program.call r k = p at h
  cases h with
  | done a => cases hp
  | crash o => cases hp
  | call hr hk =>
      cases hp
      exact .inl ⟨hr, hk⟩
  | callback hf => exact .inr ⟨_, _, rfl, hf⟩

theorem Calling.only {p : Program α} (h : p.Only Between) : Calling s p := by
  induction p with
  | done a => exact .done a
  | call r k ih => exact .call h.1 fun a => ih a (h.2 a)
  | crash o => exact h.elim

theorem Calling.bind {p : Program β} {f : β → Program α} (hp : Calling s p)
    (hf : ∀ b, Calling s (f b)) : Calling s (p >>= f) := by
  induction hp with
  | done b => exact hf b
  | crash o => exact .crash o
  | call hr _ ih => exact .call hr ih
  | @callback transfer g _ ih =>
      have hassoc : (Crossing.callback s transfer).run >>= g >>= f =
          (Crossing.callback s transfer).run >>= fun r => g r >>= f := Program.bind_assoc _ _ _
      rw [hassoc]
      exact .callback ih

variable {t : ExceptT ε Program β} {f : β → ExceptT ε Program α}

theorem Calling.seq (ht : Calling s t.run) (hf : ∀ b, Calling s (f b).run) :
    Calling s (t >>= f).run := by
  refine ht.bind fun r => ?_
  cases r with
  | ok b => exact hf b
  | error e => exact .done _

theorem Calling.lift {p : Program β} (hp : Calling s p) :
    Calling s (liftM p : ExceptT ε Program β).run :=
  hp.bind fun _ => .done _

theorem callback_calls (s : Settings) (transfer : String) : Calling s (callback s transfer).run := by
  have h : Calling s ((callback s transfer).run >>= Program.done) := .callback .done
  rwa [show (callback s transfer).run >>= Program.done = _ from Program.bind_done _] at h

/-! ## Operations -/

theorem Paying.between {r : Request} (h : Paying r) : Between r := by
  cases r with
  | updateDeposit d expected => rcases h with rfl | rfl <;> exact Status.noConfusion
  | depositByTransfer transfer => exact h
  | _ => trivial

theorem startRail_calls (s : Settings) (d : Deposit) : Calling s (startRail s d).run :=
  .only (only_startRail trivial trivial trivial (fun _ => trivial) fun _ _ => Status.noConfusion)

theorem initiate_calls (s : Settings) (user : Uuid) (railAccount : String) (amount : Amount)
    (reference : String) : Calling s (initiate s user railAccount amount reference).run :=
  .only (only_initiate trivial trivial trivial (fun _ => trivial) (fun _ => trivial) trivial
    (fun _ => trivial) fun _ => Status.noConfusion)

theorem initiateForRailAccount_calls (s : Settings) (railAccount : String) (amount : Amount)
    (reference : String) : Calling s (initiateForRailAccount s railAccount amount reference).run := by
  refine Calling.seq (.only (.request trivial)) fun found => ?_
  exact Calling.seq (.only (.orNotFound _ _ found)) fun account => initiate_calls s _ _ _ _

theorem fund_calls (s : Settings) (d : Deposit) : Calling s (fund s d).run :=
  .only ((fund_pays s d).mono fun _ => Paying.between)

theorem visitAll_calls {visit : Report → Deposit → Program Report} {ds : List Deposit}
    (hvisit : ∀ report d, Calling s (visit report d)) (report : Report) :
    Calling s (visitAll visit report ds) := by
  induction ds generalizing report with
  | nil => exact .done _
  | cons d ds ih =>
      refine Calling.bind (.only (.request trivial)) fun cancelled => ?_
      split
      · exact .done _
      · exact (hvisit report d).bind ih

theorem visitFunding_calls (report : Report) (d : Deposit) :
    Calling s (visitFunding s report d) :=
  (fund_calls s d).bind fun r => by cases r <;> exact .done _

theorem visitCreated_calls (now : Instant) (report : Report) (d : Deposit) :
    Calling s (visitCreated s now report d) := by
  unfold visitCreated
  split
  · exact .done _
  · exact (startRail_calls s d).bind fun r => by cases r <;> exact .done _

theorem visitInitiated_calls (report : Report) (d : Deposit) :
    Calling s (visitInitiated s report d) := by
  unfold visitInitiated
  split
  · exact .done _
  · exact .callback fun r => by split <;> exact .done _

theorem visitFunded_calls (report : Report) (d : Deposit) : Calling s (visitFunded report d) := by
  have hrecord : Calling s (recordUsage d).run :=
    .only ((recordUsage_pays d).mono fun _ => Paying.between)
  exact hrecord.bind fun r => by cases r <;> exact .done _

theorem sweep_calls (s : Settings) (now : Instant) : Calling s (sweep s now).run := by
  have hlist (status : Status) : Calling s (depositsIn status).run := .only (.request trivial)
  refine (hlist .railCompleted).seq fun ds => ?_
  refine (Calling.lift (visitAll_calls visitFunding_calls _)).seq fun ⟨report, whole⟩ => ?_
  cases whole with
  | false => exact .done _
  | true =>
      refine (hlist .created).seq fun ds => ?_
      refine (Calling.lift (visitAll_calls (visitCreated_calls now) _)).seq
        fun ⟨report, whole⟩ => ?_
      cases whole with
      | false => exact .done _
      | true =>
          refine (hlist .railInitiated).seq fun ds => ?_
          refine (Calling.lift (visitAll_calls visitInitiated_calls _)).seq
            fun ⟨report, whole⟩ => ?_
          cases whole with
          | false => exact .done _
          | true =>
              refine (hlist .brokerFunded).seq fun ds => ?_
              exact (Calling.lift (visitAll_calls visitFunded_calls _)).seq fun _ => .done _

theorem deliver_calls (s : Settings) (body : Bytes) (signature : String) :
    Calling s (Webhook.deliver s body signature).run := by
  have hmalformed {γ : Type} (o : Option γ) : Calling s (Webhook.orMalformed o).run := by
    cases o <;> exact .done _
  refine Calling.seq (.only (.ofExcept _)) fun _ => (hmalformed _).seq fun e => ?_
  split
  · exact (hmalformed _).seq fun e => (callback_calls s e.id).seq fun _ => .done _
  · split
    · refine (hmalformed _).seq fun e => ?_
      refine Calling.seq (initiateForRailAccount_calls s _ _ _).lift fun r => ?_
      rcases r with (_ | _) | _ <;> exact .done _
    · exact .done _

theorem program_calls (s : Settings) (op : Operation) : Calling s (op.program s) := by
  cases op with
  | initiate user railAccount amount reference =>
      exact (initiate_calls s _ _ _ _).bind fun _ => .done _
  | initiateForRailAccount railAccount amount reference =>
      exact (initiateForRailAccount_calls s _ _ _).bind fun _ => .done _
  | callback transfer => exact .callback fun _ => .done _
  | fund d => exact (fund_calls s d).bind fun _ => .done _
  | cancel id => exact (Calling.only (only_cancel trivial)).bind fun _ => .done _
  | sweep now => exact (sweep_calls s now).bind fun _ => .done _
  | deliver body signature => exact (deliver_calls s body signature).bind fun _ => .done _

end Causeway.Crossing
