import Causeway.Proofs.Crossing.System
import Causeway.Proofs.Deposit.Moves

/-!
# Which requests an operation makes

What happens to a deposit once it is on the rail makes no deposit, orders no transfer and writes no
deposit that waits for one (`Onward`). Only taking deposits in and resuming them does, so rules that
permit everything else are kept to by all operations if these two keep to them
(`program_of_onward`).
-/

namespace Causeway.Crossing

open Deposit (Event Status)
open Program (Only)

variable {s : Settings} {P : Request → Prop} {d : Deposit} {ε α β : Type}

/-! ## Parts of operations -/

theorem only_mark {e : Event} {f : Deposit → Action α} (hnow : P .now)
    (hf : ∀ now d', d.apply e now = .ok d' → (f d').run.Only P) : (mark d e >>= f).run.Only P := by
  refine ⟨hnow, fun now => ?_⟩
  change (Action.ofExcept (d.apply e now) >>= f).run.Only P
  cases h : d.apply e now with
  | ok d' => exact hf now d' h
  | error e => trivial

theorem only_convert {p : ProviderSettings} {r : Conversion.Request}
    (horder : P (.createTransfer (p.order r))) (hpause : ∀ ms, P (.pause ms)) :
    (Provider.convert p r).run.Only P := by
  have hcreate : (Provider.createTransfer (p.order r)).run.Only P :=
    .seq (.lift (.request horder)) fun reply => .receive hpause _ reply
  refine Program.Only.seq ?_ fun _ => hcreate.seq fun _ => trivial
  cases p.validate r <;> trivial

theorem only_startRail (horder : P (.createTransfer (s.provider.order (request s d))))
    (hnow : P .now) (hask : P .isAborted) (hpause : ∀ ms, P (.pause ms))
    (hupdate : ∀ d', d'.id = d.id → P (.updateDeposit d' .created)) :
    (startRail s d).run.Only P := by
  have hwrite : ∀ {e : Event} {now : Instant} {d' : Deposit}, d.apply e now = .ok d' →
      (update d' .created).run.Only P := fun h =>
    .request (hupdate _ (congrArg Deposit.Origin.id (Deposit.origin_of_apply h)))
  have hconvert := only_convert (p := s.provider) horder hpause
  refine Only.seq (hconvert.retrying hask hpause _).result fun r => ?_
  cases r with
  | ok response => exact only_mark hnow fun now d' h => (hwrite h).seq fun _ => trivial
  | error e =>
      refine Only.seq (.lift (.request hask)) fun aborted => ?_
      split
      · trivial
      · exact only_mark hnow fun now d' h => (hwrite h).result.seq fun _ => trivial

theorem only_initiate {user : Uuid} {railAccount : String} {amount : Amount} {reference : String}
    (hread : P (.accountByRail railAccount)) (hnow : P .now) (hid : P .freshId)
    (hcreate : ∀ d, P (.createDeposit d)) (horder : ∀ o, P (.createTransfer o))
    (hask : P .isAborted) (hpause : ∀ ms, P (.pause ms))
    (hupdate : ∀ d, P (.updateDeposit d .created)) :
    (initiate s user railAccount amount reference).run.Only P := by
  unfold initiate
  dsimp only
  refine Only.unless fun _ => ?_
  refine Only.seq (.request hread) fun found => ?_
  refine Only.seq (.orNotFound _ _ found) fun account => ?_
  refine Only.unless fun _ => ?_
  refine Only.seq (.lift (.request hnow)) fun now => ?_
  refine Only.seq (.lift (.request hid)) fun id => ?_
  refine Only.seq (.request (hcreate _)) fun _ => ?_
  exact only_startRail (horder _) hnow hask hpause fun d _ => hupdate d

theorem only_persist {expected : Status} (h : P (.updateDeposit d expected)) :
    (persist d expected).run.Only P := by
  have hupdate : (update d expected).run.Only P := .request h
  refine Only.seq hupdate.result fun r => ?_
  rcases r with e | ⟨⟩
  · cases e <;> trivial
  · trivial

theorem only_payIn (hfund : ∀ key account amount, P (.fundAccount key account amount))
    (hpause : ∀ ms, P (.pause ms)) (key account : String) (amount : Decimal) :
    (payIn key account amount).run.Only P :=
  .seq (.lift (.request (hfund _ _ _))) fun reply => .receive hpause _ reply

theorem only_currentOutcome {id : Uuid} (hread : P (.depositById id)) :
    (currentOutcome id).run.Only P :=
  Only.seq (Only.request hread) fun found => (Only.orNotFound _ _ found).seq fun _ => trivial

theorem only_cancel {id : Uuid} (hread : P (.depositById id)) : (cancel s id).run.Only P := by
  refine Only.seq (Only.request hread) fun found => ?_
  refine (Only.orNotFound _ _ found).seq fun d => ?_
  refine Only.unless fun _ => ?_
  exact Only.unless fun _ => trivial

theorem only_search (hlist : ∀ limit offset, P (.listTransfers limit offset))
    (hpause : ∀ ms, P (.pause ms)) (pageSize : Nat) (transfer : String) (pages offset : Nat) :
    (Provider.searchFrom pageSize transfer pages offset).run.Only P := by
  induction pages generalizing offset with
  | zero => trivial
  | succ pages ih =>
      have hpage : (Provider.listTransfers pageSize offset).run.Only P :=
        .seq (.lift (.request (hlist _ _))) fun reply => .receive hpause _ reply
      refine Only.seq hpage fun page => ?_
      cases page.find? (·.id = transfer) with
      | some t => trivial
      | none =>
          dsimp only
          split
          · trivial
          · exact ih _

theorem only_visitAll {visit : Report → Deposit → Program Report} (hask : P .isCancelled)
    {ds : List Deposit} (hvisit : ∀ report, ∀ d ∈ ds, (visit report d).Only P) (report : Report) :
    (visitAll visit report ds).Only P := by
  induction ds generalizing report with
  | nil => trivial
  | cons d ds ih =>
      refine Only.bind (.request hask) fun cancelled => ?_
      split
      · trivial
      · refine (hvisit report d (by simp)).bind fun report => ?_
        exact ih (fun report d hd => hvisit report d (by simp [hd])) report

/-! ## Paying in -/

/-- What paying a deposit in and counting it asks for. -/
def Paying : Request → Prop
  | .now | .claim _ | .release _ | .depositById _ | .accountById _ | .applyUsage _ _ _
  | .fundAccount _ _ _ | .isAborted | .pause _ => True
  | .updateDeposit _ expected => expected = .railCompleted ∨ expected = .brokerFunded
  | _ => False

theorem recordUsage_pays (d : Deposit) : (recordUsage d).run.Only Paying := by
  have hupdate (d' : Deposit) : (update d' .brokerFunded).run.Only Paying := .request (.inr rfl)
  refine Only.seq (Only.request trivial) fun _ => ?_
  exact only_mark trivial fun _ d' _ => (hupdate d').seq fun _ => trivial

theorem fundClaimed_pays (s : Settings) (id : Uuid) : (fundClaimed s id).run.Only Paying := by
  refine Only.seq (Only.request trivial) fun found => ?_
  refine Only.seq (Only.orNotFound _ _ found) fun d => ?_
  refine Only.unless fun _ => ?_
  refine Only.seq (Only.request trivial) fun found => ?_
  refine Only.seq (Only.orNotFound _ _ found) fun account => ?_
  refine Only.seq ((only_payIn (fun _ _ _ => trivial) (fun _ => trivial) _ _ _).retrying trivial
    (fun _ => trivial) _) fun ref => ?_
  refine only_mark trivial fun _ d' _ => ?_
  have hupdate : (update d' .railCompleted).run.Only Paying := .request (.inl rfl)
  refine hupdate.seq fun _ => (recordUsage_pays d').result.seq fun r => ?_
  cases r <;> trivial

theorem fund_pays (s : Settings) (d : Deposit) : (fund s d).run.Only Paying := by
  unfold fund
  dsimp only
  refine Only.unless fun _ => ?_
  refine Only.seq (.lift (.request trivial)) fun claimed => ?_
  refine Only.unless fun _ => ?_
  refine (fundClaimed_pays s d.id).result.seq fun r => ?_
  exact Only.seq (.lift (.request trivial)) fun _ => .ofExcept r

/-! ## From the rail on -/

def Onward : Request → Prop
  | .createDeposit _ | .createTransfer _ => False
  | .updateDeposit _ expected => expected ≠ .created
  | _ => True

theorem Paying.onward {r : Request} (h : Paying r) : Onward r := by
  cases r with
  | updateDeposit d expected => rcases h with rfl | rfl <;> exact Status.noConfusion
  | createDeposit d => exact h
  | createTransfer o => exact h
  | _ => trivial

theorem recordUsage_onward (d : Deposit) : (recordUsage d).run.Only Onward :=
  (recordUsage_pays d).mono fun _ => Paying.onward

theorem fund_onward (s : Settings) (d : Deposit) : (fund s d).run.Only Onward :=
  (fund_pays s d).mono fun _ => Paying.onward

theorem callback_onward (s : Settings) (transfer : String) :
    (callback s transfer).run.Only Onward := by
  have hstatus : (Provider.status s.provider transfer).run.Only Onward :=
    only_search (fun _ _ => trivial) (fun _ => trivial) _ _ _ _
  refine Only.seq (Only.request trivial) fun found => ?_
  cases found with
  | none => trivial
  | some d =>
      dsimp only
      split
      · trivial
      · rename_i hst
        have hexpected : d.status ≠ .created := by simp_all
        refine (hstatus.retrying trivial (fun _ => trivial) _).seq fun response => ?_
        split
        · refine only_mark trivial fun _ completed _ => ?_
          refine (only_persist hexpected).seq fun stored => ?_
          cases stored with
          | false => exact only_currentOutcome trivial
          | true => exact (fund_onward s completed).result.seq fun r => by cases r <;> trivial
        · refine only_mark trivial fun _ failed _ => (only_persist hexpected).seq fun stored => ?_
          cases stored with
          | false => exact only_currentOutcome trivial
          | true => trivial
        · trivial
        · trivial

/-! ## Phases of the sweep -/

theorem visitFunding_onward (s : Settings) (report : Report) (d : Deposit) :
    (visitFunding s report d).Only Onward :=
  (fund_onward s d).bind fun r => by cases r <;> trivial

theorem visitInitiated_onward (s : Settings) (report : Report) (d : Deposit) :
    (visitInitiated s report d).Only Onward := by
  unfold visitInitiated
  split
  · trivial
  · refine (callback_onward s _).bind fun r => ?_
    split <;> trivial

theorem visitFunded_onward (report : Report) (d : Deposit) :
    (visitFunded report d).Only Onward :=
  (recordUsage_onward d).bind fun r => by cases r <;> trivial

/-! ## All operations -/

section Rules

variable {R : Rules} {w : World}

theorem phase_of_onward (honward : ∀ w r, Onward r → R.permits w r)
    {visit : Report → Deposit → Program Report} {ds : List Deposit}
    (hvisit : ∀ report d, (visit report d).Only Onward) (report : Report) (w : World) :
    R.Safe (liftM (visitAll visit report ds) : Action (Report × Bool)) (fun _ _ => True) w :=
  Rules.Safe.only honward
    (.lift (only_visitAll trivial (fun report d _ => hvisit report d) report)) w

theorem orMalformed_keeps (o : Option α) (w : World) :
    R.Safe (Webhook.orMalformed o) (fun _ _ => True) w := by
  cases o <;> trivial

variable (honward : ∀ w r, Onward r → R.permits w r)
  (hinitiate : ∀ user railAccount amount reference w,
    R.Safe (initiate s user railAccount amount reference) (fun _ _ => True) w)
  (hresume : ∀ now report w, R.Safe (depositsIn .created)
    (fun ds w => R.Safe (liftM (visitAll (visitCreated s now) report ds) : Action (Report × Bool))
      (fun _ _ => True) w) w)

include honward hinitiate

theorem initiateForRailAccount_of_onward (railAccount : String) (amount : Amount)
    (reference : String) (w : World) :
    R.Safe (initiateForRailAccount s railAccount amount reference) (fun _ _ => True) w := by
  refine Rules.Safe.bind (Rules.Safe.askFree (Rules.Keeps.free (.accountByRail railAccount)
    (fun w => honward w _ trivial) w)) fun found w _ => ?_
  refine Rules.Safe.bind (Rules.Safe.orNotFound _ _ found w) fun account w _ => ?_
  exact hinitiate _ _ _ _ w

theorem deliver_of_onward (body : Bytes) (signature : String) (w : World) :
    R.Safe (Webhook.deliver s body signature) (fun _ _ => True) w := by
  refine Rules.Safe.bind (Rules.Safe.ofExcept _ w) fun _ w _ => ?_
  refine Rules.Safe.bind (orMalformed_keeps _ w) fun e w _ => ?_
  split
  · refine Rules.Safe.bind (orMalformed_keeps _ w) fun e w _ => ?_
    exact Rules.Safe.bind (Rules.Safe.only honward (callback_onward s e.id) w)
      fun _ _ _ => Rules.Safe.pure trivial
  · split
    · refine Rules.Safe.bind (orMalformed_keeps _ w) fun e w _ => ?_
      refine Rules.Safe.bind (Rules.Safe.result (initiateForRailAccount_of_onward honward hinitiate
        e.account e.amount e.reference w)) fun r w _ => ?_
      split
      · exact Rules.Safe.pure trivial
      · exact Rules.Safe.pure trivial
      · exact Rules.Safe.throw
    · exact Rules.Safe.pure trivial

include hresume
omit hinitiate

theorem sweep_of_onward (now : Instant) (w : World) :
    R.Safe (sweep s now) (fun _ _ => True) w := by
  have hlist (status : Status) (w : World) : R.Safe (depositsIn status) (fun _ _ => True) w :=
    Rules.Safe.askFree (Rules.Keeps.free (.depositsIn status) (fun w => honward w _ trivial) w)
  refine Rules.Safe.bind (hlist .railCompleted w) fun ds w _ => ?_
  refine Rules.Safe.bind (phase_of_onward honward (visitFunding_onward s) {} w)
    fun ⟨report, whole⟩ w _ => ?_
  cases whole with
  | false => exact Rules.Safe.pure trivial
  | true =>
      refine Rules.Safe.bind (hresume now report w) fun ds w hds => ?_
      refine Rules.Safe.bind hds fun ⟨report, whole⟩ w _ => ?_
      cases whole with
      | false => exact Rules.Safe.pure trivial
      | true =>
          refine Rules.Safe.bind (hlist .railInitiated w) fun ds w _ => ?_
          refine Rules.Safe.bind (phase_of_onward honward (visitInitiated_onward s) report w)
            fun ⟨report, whole⟩ w _ => ?_
          cases whole with
          | false => exact Rules.Safe.pure trivial
          | true =>
              refine Rules.Safe.bind (hlist .brokerFunded w) fun ds w _ => ?_
              exact Rules.Safe.bind (phase_of_onward honward visitFunded_onward report w)
                fun _ _ _ => Rules.Safe.pure trivial

include hinitiate

/-- Rules that permit every request that leads on are kept to by every operation, if they are kept
to where deposits are taken in and where those that wait are resumed. -/
theorem program_of_onward (op : Operation) (w : World) :
    R.Keeps (op.program s) (fun _ _ => True) w := by
  cases op with
  | initiate user railAccount amount reference =>
      exact .map (.mono (hinitiate _ _ _ _ w) fun _ _ _ => trivial)
  | initiateForRailAccount railAccount amount reference =>
      exact .map (.mono (initiateForRailAccount_of_onward honward hinitiate _ _ _ w)
        fun _ _ _ => trivial)
  | callback transfer => exact .map (Rules.Keeps.only honward (callback_onward s transfer) w)
  | fund d => exact .map (Rules.Keeps.only honward (fund_onward s d) w)
  | cancel id => exact .map (Rules.Keeps.only honward (only_cancel trivial) w)
  | sweep now => exact .map (.mono (sweep_of_onward honward hresume now w) fun _ _ _ => trivial)
  | deliver body signature =>
      exact .map (.mono (deliver_of_onward honward hinitiate _ _ w) fun _ _ _ => trivial)

end Rules

end Causeway.Crossing
