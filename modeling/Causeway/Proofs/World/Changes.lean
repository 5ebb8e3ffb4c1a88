import Causeway.Proofs.Rail.Sandbox
import Causeway.Proofs.World.Perform

/-!
# What requests leave alone, and which are answered

Deposits are touched only by their creations and updates (`perform_deposits`), transfers only by
orders (`perform_transfers`), each of which adds one at most (`createTransfer_cases`), and claims
only by those who claim or release (`perform_claims`); no request touches an account
(`perform_accounts`). Only a count can overflow; every other request is answered (`perform_ok`).
-/

namespace Causeway.World

variable {w : World} {α β : Type} {r : Request}

theorem guarded_eq {f : World → β} (hscript : ∀ w c, f { w with script := c } = f w)
    {act : World → Outcome (Except Failure α)} (hact : ∀ w, f (act w).2 = f w) (w : World)
    (call : StoreCall) : f (w.guarded call act).2 = f w := by
  unfold guarded
  split
  · exact hscript w _
  · exact hact w

theorem guarded_ok {act : World → Outcome (Except Failure α)} (hact : ∀ w, ∃ a, (act w).1 = .ok a)
    (w : World) (call : StoreCall) : ∃ a, (w.guarded call act).1 = .ok a := by
  unfold guarded
  split
  · exact ⟨_, rfl⟩
  · exact hact w

/-! ## Deposits -/

/-- Every deposit but one is stored as it was. -/
def SameBut (id : Uuid) (w w' : World) : Prop :=
  ∀ id', id' ≠ id → w'.deposits.get? id' = w.deposits.get? id'

theorem perform_deposits (w : World) (hcreate : ∀ d, r ≠ .createDeposit d)
    (hupdate : ∀ d expected, r ≠ .updateDeposit d expected) :
    (w.perform r).2.deposits = w.deposits := by
  by_cases hq : quiet r
  · exact (perform_quiet hq w).deposits
  · cases r with
    | createDeposit d => exact absurd rfl (hcreate d)
    | updateDeposit d expected => exact absurd rfl (hupdate d expected)
    | incrementUsage _ _ _ | applyUsage _ _ _ | resetUsage _ =>
        exact guarded_eq (f := (·.deposits)) (fun _ _ => rfl) (fun _ => rfl) w _
    | fundAccount key account amount =>
        rcases w.fundAccount_cases key account amount with ⟨_, _, hq, _⟩ | ⟨_, _, _, hq, _⟩
        · exact hq.deposits
        · exact hq.deposits
    | _ => exact absurd rfl hq

/-! ## Transfers -/

theorem contestedUpdate_eq {f : World → β}
    (h : ∀ w deposits c n, f { w with deposits, script := c, readings := n } = f w) (w : World)
    (d : Deposit) (expected : Deposit.Status) : f (w.contestedUpdate d expected).2 = f w := by
  refine guarded_eq (fun w c => h w w.deposits c w.readings) (fun w => ?_) w _
  split
  · exact h w w.deposits _ w.readings
  · have hrace : f (w.race d.id).2 = f w := by
      unfold race
      split
      · rfl
      · exact h w _ _ _
    split
    · rename_i w' heq
      rw [heq] at hrace
      rw [← hrace]
      unfold updateDeposit
      split
      · exact h w' _ _ _
      · rfl
    · rename_i heq
      rw [heq] at hrace
      exact hrace

theorem fundAccount_eq {f : World → β}
    (h : ∀ w sent drawn brokerage c,
      f { w with outbound := sent, drawn := drawn, brokerage := brokerage, script := c } = f w)
    (w : World) (key account : String) (amount : Decimal) :
    f (w.perform (.fundAccount key account amount)).2 = f w := by
  simp only [perform, fundAccount, send, freshId]
  split
  all_goals
    obtain ⟨c, hc, -⟩ := delayed_world _ _ _
    rw [hc]
    exact h w _ _ _ _

theorem listTransfers_rail (w : World) (limit offset : Nat) :
    (w.perform (.listTransfers limit offset)).2.rail = (w.rail.list limit offset).2 := by
  simp only [perform, listTransfers]
  obtain ⟨c, hc, -⟩ := delayed_world
    { w.send (.list limit offset) with rail := (w.rail.list limit offset).2 } .railList
    (w.rail.list limit offset).1
  rw [show (w.send (.list limit offset)).rail = w.rail from rfl, hc]

/-- Every request but an order leaves the transfers as they are. -/
theorem perform_transfers (w : World) (h : ∀ o, r ≠ .createTransfer o) :
    (w.perform r).2.rail.transfers = w.rail.transfers := by
  cases r with
  | createTransfer o => exact absurd rfl (h o)
  | listTransfers limit offset =>
      rw [listTransfers_rail]
      exact w.rail.transfers_list limit offset
  | fundAccount key account amount =>
      exact w.fundAccount_eq (f := (·.rail.transfers)) (fun _ _ _ _ _ => rfl) key account amount
  | updateDeposit d expected =>
      exact w.contestedUpdate_eq (f := (·.rail.transfers)) (fun _ _ _ _ => rfl) d expected
  | createDeposit d =>
      refine guarded_eq (f := (·.rail.transfers)) (fun _ _ => rfl) (fun w => ?_) w _
      unfold createDeposit
      split <;> rfl
  | depositById _ | depositByTransfer _ | depositsIn _ | accountByRail _ | accountById _
  | incrementUsage _ _ _ | applyUsage _ _ _ | resetUsage _ =>
      exact guarded_eq (f := (·.rail.transfers)) (fun _ _ => rfl) (fun _ => rfl) w _
  | claim id =>
      simp only [perform]
      split <;> rfl
  | now | freshId | userById _ | release _ | isAborted | isCancelled | pause _ => rfl

/-- An order leaves the transfers as they are and may be answered with the one under its reference,
or it makes one. -/
theorem createTransfer_cases (w : World) (o : Rail.Order) :
    ∃ r, (w.perform (.createTransfer o)).1 = .ok r ∧
      ((w.perform (.createTransfer o)).2.rail.transfers = w.rail.transfers ∧
          (∀ t, r.answer = .ok t → w.rail.findReference? o.reference = some t) ∨
        w.rail.findReference? o.reference = none ∧
          r.answer = .ok (Rail.Sandbox.opened o (w.ids w.drawn)) ∧
          (w.perform (.createTransfer o)).2.rail.transfers =
            w.rail.transfers ++ [Rail.Sandbox.opened o (w.ids w.drawn)] ∧
          (w.perform (.createTransfer o)).2.drawn = w.drawn + 1) := by
  simp only [perform, createTransfer, send, freshId]
  rcases w.rail.create_cases o (w.ids w.drawn) with
    ⟨e, h, ht⟩ | ⟨t, hf, h, ht⟩ | ⟨hf, h, ht⟩
  all_goals
    generalize w.rail.create o (w.ids w.drawn) = out at h ht ⊢
    obtain ⟨r, rail⟩ := out
    subst h
    dsimp only at ht ⊢
    obtain ⟨ms, hm⟩ := delayed_answer _ _ _
    obtain ⟨c, hw, -⟩ := delayed_world _ _ _
    rw [hw]
  · exact ⟨_, hm, .inl ⟨ht, by simp⟩⟩
  · refine ⟨_, hm, .inl ⟨ht, fun t' ht' => ?_⟩⟩
    cases ht'
    exact hf
  · exact ⟨_, hm, .inr ⟨hf, rfl, ht, rfl⟩⟩

/-- An order that is answered leaves the transfer to be found under its reference. -/
theorem findReference?_createTransfer {w : World} {o : Rail.Order}
    {r : Reply (Except Rail.ApiError Rail.Transfer)} {t : Rail.Transfer}
    (hr : (w.perform (.createTransfer o)).1 = .ok r) (ht : r.answer = .ok t) :
    (w.perform (.createTransfer o)).2.rail.findReference? o.reference = some t := by
  obtain ⟨r', hr', hcases⟩ := w.createTransfer_cases o
  rw [hr'] at hr
  cases hr
  unfold Rail.Sandbox.findReference? at hcases ⊢
  rcases hcases with ⟨hsame, hheld⟩ | ⟨hnew, hopened, hmade, -⟩
  · rw [hsame]
    exact hheld t ht
  · rw [hopened] at ht
    cases ht
    rw [hmade, List.find?_append, hnew]
    simp [Rail.Sandbox.opened]

/-! ## Calls -/

/-- The requests that call the rail or the brokerage. -/
def outward : Request → Bool
  | .createTransfer _ | .listTransfers _ _ | .fundAccount _ _ _ => true
  | _ => false

theorem perform_outbound (w : World) (h : outward r = false) :
    (w.perform r).2.outbound = w.outbound := by
  cases r with
  | createTransfer _ | listTransfers _ _ | fundAccount _ _ _ => cases h
  | updateDeposit d expected =>
      exact w.contestedUpdate_eq (f := (·.outbound)) (fun _ _ _ _ => rfl) d expected
  | createDeposit d =>
      refine guarded_eq (f := (·.outbound)) (fun _ _ => rfl) (fun w => ?_) w _
      unfold createDeposit
      split <;> rfl
  | depositById _ | depositByTransfer _ | depositsIn _ | accountByRail _ | accountById _
  | incrementUsage _ _ _ | applyUsage _ _ _ | resetUsage _ =>
      exact guarded_eq (f := (·.outbound)) (fun _ _ => rfl) (fun _ => rfl) w _
  | claim id =>
      simp only [perform]
      split <;> rfl
  | now | freshId | userById _ | release _ | isAborted | isCancelled | pause _ => rfl

/-! ## Claims and the timer -/

/-- What no call, no change of a store and no fault shows in, only a claim or a wait changes. -/
theorem perform_elsewhere {f : World → β}
    (hf : ∀ w readings drawn deposits usages rail brokerage script outbound,
      f { w with readings, drawn, deposits, usages, rail, brokerage, script, outbound } = f w)
    (w : World) (hclaim : ∀ id, r ≠ .claim id) (hrelease : ∀ id, r ≠ .release id)
    (hpause : ∀ ms, r ≠ .pause ms) : f (w.perform r).2 = f w := by
  cases r with
  | claim id => exact absurd rfl (hclaim id)
  | release id => exact absurd rfl (hrelease id)
  | pause ms => exact absurd rfl (hpause ms)
  | createTransfer o =>
      simp only [perform, createTransfer, send, freshId]
      split
      all_goals
        obtain ⟨c, hc, -⟩ := delayed_world _ _ _
        rw [hc]
        exact hf w _ _ _ _ _ _ _ _
  | listTransfers limit offset =>
      obtain ⟨c, hc, -⟩ := delayed_world
        { w.send (.list limit offset) with rail := (w.rail.list limit offset).2 } .railList
        (w.rail.list limit offset).1
      rw [show (w.perform (.listTransfers limit offset)).2 = _ from hc]
      exact hf w _ _ _ _ _ _ _ _
  | fundAccount key account amount =>
      exact w.fundAccount_eq (fun w _ _ _ _ => hf w _ _ _ _ _ _ _ _) key account amount
  | updateDeposit d expected =>
      exact w.contestedUpdate_eq (fun w _ _ _ => hf w _ _ _ _ _ _ _ _) d expected
  | createDeposit d =>
      refine guarded_eq (fun w _ => hf w _ _ _ _ _ _ _ _) (fun w => ?_) w _
      unfold createDeposit
      split
      · exact hf w _ _ _ _ _ _ _ _
      · rfl
  | depositById _ | depositByTransfer _ | depositsIn _ | accountByRail _ | accountById _ =>
      exact guarded_eq (fun w _ => hf w _ _ _ _ _ _ _ _) (fun _ => rfl) w _
  | incrementUsage _ _ _ | applyUsage _ _ _ | resetUsage _ =>
      exact guarded_eq (fun w _ => hf w _ _ _ _ _ _ _ _) (fun w => hf w _ _ _ _ _ _ _ _) w _
  | now | freshId => exact hf w _ _ _ _ _ _ _ _
  | userById _ | isAborted | isCancelled => rfl

theorem perform_claims (w : World) (hclaim : ∀ id, r ≠ .claim id)
    (hrelease : ∀ id, r ≠ .release id) : (w.perform r).2.claims = w.claims := by
  cases r with
  | pause ms => rfl
  | _ =>
      exact perform_elsewhere (f := (·.claims)) (fun _ _ _ _ _ _ _ _ _ => rfl) w hclaim hrelease
        (by simp)

theorem perform_timer (w : World) (hpause : ∀ ms, r ≠ .pause ms) :
    (w.perform r).2.timer = w.timer := by
  cases r with
  | claim id =>
      simp only [perform]
      split <;> rfl
  | release id => rfl
  | _ =>
      exact perform_elsewhere (f := (·.timer)) (fun _ _ _ _ _ _ _ _ _ => rfl) w (by simp) (by simp)
        hpause

theorem perform_accounts (w : World) (r : Request) : (w.perform r).2.accounts = w.accounts := by
  cases r with
  | claim id =>
      simp only [perform]
      split <;> rfl
  | release id | pause ms => rfl
  | _ =>
      exact perform_elsewhere (f := (·.accounts)) (fun _ _ _ _ _ _ _ _ _ => rfl) w (by simp)
        (by simp) (by simp)

/-- What is claimed after a request was claimed before, or is claimed by it. -/
theorem mem_claims_perform {id : Uuid} (h : id ∈ (w.perform r).2.claims) :
    id ∈ w.claims ∨ r = .claim id := by
  cases r with
  | claim id' =>
      simp only [perform] at h
      split at h
      · exact .inl h
      · rcases List.mem_cons.mp h with rfl | h
        · exact .inr rfl
        · exact .inl h
  | release id' => exact .inl (List.mem_of_mem_erase h)
  | _ => exact .inl (by rwa [perform_claims w (by simp) (by simp)] at h)

theorem nodup_claims_perform (h : w.claims.Nodup) (r : Request) :
    (w.perform r).2.claims.Nodup := by
  cases r with
  | claim id =>
      simp only [perform]
      split
      · exact h
      · exact h.cons ‹_›
  | release id => exact h.erase id
  | _ => rwa [perform_claims w (by simp) (by simp)]

/-! ## Answers -/

/-- The requests that add to a counter. -/
def counts : Request → Bool
  | .incrementUsage _ _ _ | .applyUsage _ _ _ => true
  | _ => false

theorem perform_ok (w : World) (h : counts r = false) : ∃ a, (w.perform r).1 = .ok a := by
  cases r with
  | incrementUsage _ _ _ | applyUsage _ _ _ => cases h
  | createTransfer o =>
      obtain ⟨r, hr, -⟩ := w.createTransfer_cases o
      exact ⟨r, hr⟩
  | listTransfers limit offset =>
      obtain ⟨ms, hm⟩ := delayed_answer _ _ _
      exact ⟨_, hm⟩
  | fundAccount key account amount =>
      rcases w.fundAccount_cases key account amount with ⟨r, hr, -⟩ | ⟨ms, hr, -⟩
      · exact ⟨r, hr⟩
      · exact ⟨_, hr⟩
  | updateDeposit d expected =>
      refine guarded_ok (fun w => ?_) w _
      split
      · exact ⟨_, rfl⟩
      · split
        · unfold updateDeposit
          split <;> exact ⟨_, rfl⟩
        · exact ⟨_, rfl⟩
  | createDeposit d =>
      refine guarded_ok (fun w => ?_) w _
      unfold createDeposit
      split <;> exact ⟨_, rfl⟩
  | depositById _ | depositByTransfer _ | depositsIn _ | accountByRail _ | accountById _
  | resetUsage _ => exact guarded_ok (fun w => ⟨_, rfl⟩) w _
  | claim id =>
      simp only [perform]
      split <;> exact ⟨_, rfl⟩
  | now | freshId | userById _ | release _ | isAborted | isCancelled | pause _ => exact ⟨_, rfl⟩

end Causeway.World
