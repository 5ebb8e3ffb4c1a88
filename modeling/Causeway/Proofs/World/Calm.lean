import Causeway.Proofs.Retry.Timer
import Causeway.Proofs.World.Changes
import Mathlib.Algebra.GroupWithZero.Nat

/-!
# Worlds in which nothing gets in the way

Without scripted faults the stores do what they are asked (`look_of_faultless`,
`updateDeposit_of_faultless`). In a world that serves the brokerage answers as well, and no abort is
due before its answer is in; in a calm one so does the rail.
-/

namespace Causeway

open Retry (Timer)

variable {α β ε : Type}

namespace Script

/-- The stores are not made to fail. -/
structure Faultless (c : Script) : Prop where
  faults : c.faults = []
  updateFaults : c.updateFaults = []

/-- All that the script delays calls by. -/
def latency (c : Script) : Nat := (c.delays.map (·.2)).sum

variable {c : Script}

theorem Faultless.fault? (h : c.Faultless) (call : StoreCall) : c.fault? call = none := by
  simp [Script.fault?, h.faults, takeFirst]

theorem Faultless.updateFault? (h : c.Faultless) (status : Deposit.Status) :
    c.updateFault? status = none := by
  simp [Script.updateFault?, h.updateFaults, takeFirst]

theorem Faultless.delay (h : c.Faultless) (call : OutboundCall) : (c.delay call).2.Faultless := by
  unfold Script.delay
  split <;> exact ⟨h.faults, h.updateFaults⟩

theorem sum_takeFirst {κ : Type} [DecidableEq κ] {k : κ} {ms : Nat} {xs ys : List (κ × Nat)}
    (h : takeFirst k xs = some (ms, ys)) :
    ms + (ys.map (·.2)).sum = (xs.map (·.2)).sum := by
  induction xs generalizing ys with
  | nil => cases h
  | cons x xs ih =>
      obtain ⟨k', ms'⟩ := x
      rw [takeFirst] at h
      split at h
      · cases h
        simp
      · obtain ⟨⟨ms'', zs⟩, htake, heq⟩ := Option.map_eq_some_iff.mp h
        cases heq
        have := ih htake
        simp only [List.map_cons, List.sum_cons]
        omega

theorem latency_delay (c : Script) (call : OutboundCall) :
    (c.delay call).1 + (c.delay call).2.latency = c.latency := by
  unfold Script.delay latency
  split
  · rename_i htake
    exact sum_takeFirst htake
  · simp

end Script

namespace World

variable {w w' w'' : World} {d : Deposit} {expected : Deposit.Status}

/-! ## Stores without faults -/

theorem guarded_of_faultless (h : w.script.Faultless) (call : StoreCall)
    (act : World → Outcome (Except Failure α)) : w.guarded call act = act w :=
  guarded_of_none (h.fault? call)

theorem look_of_faultless (h : w.script.Faultless) (call : StoreCall) (answer : World → α) :
    w.look call answer = (.ok (.ok (answer w)), w) :=
  guarded_of_faultless h call _

theorem updateDeposit_of_faultless (h : w.script.Faultless) (hrace : w.script.race = none)
    {deposits : Store.Deposits} (hu : w.deposits.update d expected = .ok deposits) :
    w.perform (.updateDeposit d expected) = (.ok (.ok ()), { w with deposits }) :=
  updateDeposit_of_none hrace (h.fault? _) (h.updateFault? _) hu

theorem createDeposit_of_faultless (h : w.script.Faultless) :
    w.perform (.createDeposit d) = w.createDeposit d :=
  guarded_of_faultless h .depositsCreate (·.createDeposit d)

theorem delayed_faultless (h : w.script.Faultless) (call : OutboundCall) (r : Except ε α) :
    (w.delayed call r).2.script.Faultless := by
  cases r with
  | ok a => exact h.delay call
  | error e => exact h

/-- No request makes a fault. -/
theorem perform_faultless (h : w.script.Faultless) (r : Request) :
    (w.perform r).2.script.Faultless := by
  cases r with
  | depositById _ | depositByTransfer _ | depositsIn _ | accountByRail _ | accountById _ =>
      simp only [perform, look_of_faultless h]
      exact h
  | createDeposit d =>
      rw [createDeposit_of_faultless h]
      unfold createDeposit
      split <;> exact h
  | updateDeposit d expected =>
      simp only [perform, contestedUpdate, guarded_of_faultless h, h.updateFault?]
      have hrace : (w.race d.id).2.script.Faultless := by
        unfold race
        split
        · exact h
        · exact ⟨h.faults, h.updateFaults⟩
      split
      · rename_i heq
        rw [heq] at hrace
        unfold updateDeposit
        split <;> exact hrace
      · rename_i heq
        rw [heq] at hrace
        exact hrace
  | incrementUsage _ _ _ | applyUsage _ _ _ | resetUsage _ =>
      simp only [perform, guarded_of_faultless h]
      exact h
  | createTransfer o =>
      simp only [perform, createTransfer]
      split <;> exact delayed_faultless (by exact h) _ _
  | listTransfers limit offset => exact delayed_faultless (by exact h) _ _
  | fundAccount key account amount =>
      simp only [perform, fundAccount]
      split <;> exact delayed_faultless (by exact h) _ _
  | claim id =>
      simp only [perform]
      split <;> exact h
  | now | freshId | userById _ | release _ | isAborted | isCancelled | pause _ => exact h

/-! ## Worlds that serve -/

/-- The stores and the brokerage do what they are asked, and no abort is due before another `ms`
milliseconds and all delays have passed. -/
structure Serving (w : World) (ms : Nat) : Prop where
  faultless : w.script.Faultless
  fundings : w.brokerage.failures = []
  clear : w.timer.Clear (ms + w.script.latency)

variable {ms : Nat}

theorem Serving.clear_self (h : w.Serving ms) : w.timer.Clear ms :=
  h.clear.mono (Nat.le_add_right ..)

theorem Serving.not_aborted (h : w.Serving 0) : w.timer.aborted = false :=
  Timer.aborted_eq_false_iff.mpr h.clear_self

theorem Serving.wait (h : w.Serving ms) : Serving { w with timer := w.timer.advance ms } 0 where
  faultless := h.faultless
  fundings := h.fundings
  clear := by
    rw [Timer.clear_advance_iff, Nat.zero_add]
    exact h.clear

/-- A call that succeeds is answered after its delay. -/
theorem Serving.delayed (h : w.Serving 0) (call : OutboundCall) (a : α) :
    ∃ ms c, w.delayed call (.ok a : Except ε α) = (.ok ⟨.ok a, ms⟩, { w with script := c }) ∧
      Serving { w with script := c } ms := by
  refine ⟨(w.script.delay call).1, (w.script.delay call).2, rfl, h.faultless.delay call, h.fundings,
    ?_⟩
  have hclear := h.clear
  rw [Nat.zero_add] at hclear
  rwa [Script.latency_delay]

/-! ## Calm worlds -/

/-- No fault and no failure is scripted, and no abort is due before another `ms` milliseconds and
all delays have passed. -/
structure Calm (w : World) (ms : Nat) : Prop where
  faultless : w.script.Faultless
  creates : w.rail.createFailures = []
  lists : w.rail.listFailures = []
  fundings : w.brokerage.failures = []
  clear : w.timer.Clear (ms + w.script.latency)

theorem Calm.serving (h : w.Calm ms) : w.Serving ms := ⟨h.faultless, h.fundings, h.clear⟩

theorem Serving.calm (h : w.Serving ms) (hcreates : w.rail.createFailures = [])
    (hlists : w.rail.listFailures = []) : w.Calm ms :=
  ⟨h.faultless, hcreates, hlists, h.fundings, h.clear⟩

theorem Calm.clear_self (h : w.Calm ms) : w.timer.Clear ms := h.serving.clear_self

theorem Calm.not_aborted (h : w.Calm 0) : w.timer.aborted = false := h.serving.not_aborted

theorem Calm.not_cancelled (h : w.Calm 0) : w.timer.cancelled = false :=
  Timer.not_cancelled_of_clear h.clear_self

theorem Calm.wait (h : w.Calm ms) : Calm { w with timer := w.timer.advance ms } 0 :=
  h.serving.wait.calm h.creates h.lists

theorem Calm.delayed (h : w.Calm 0) (call : OutboundCall) (a : α) :
    ∃ ms c, w.delayed call (.ok a : Except ε α) = (.ok ⟨.ok a, ms⟩, { w with script := c }) ∧
      Calm { w with script := c } ms := by
  obtain ⟨ms, c, hd, hserving⟩ := h.serving.delayed (ε := ε) call a
  exact ⟨ms, c, hd, hserving.calm h.creates h.lists⟩

/-! ## What is left alone -/

/-- Nothing of what is stored, ordered, paid or claimed has changed. -/
structure Unmoved (w w' : World) : Prop where
  deposits : w'.deposits = w.deposits
  usages : w'.usages = w.usages
  accounts : w'.accounts = w.accounts
  claims : w'.claims = w.claims
  transfers : w'.rail.transfers = w.rail.transfers
  fundings : w'.brokerage.fundings = w.brokerage.fundings
  byKey : w'.brokerage.byKey = w.brokerage.byKey

theorem Unmoved.refl (w : World) : Unmoved w w := ⟨rfl, rfl, rfl, rfl, rfl, rfl, rfl⟩

theorem Unmoved.trans (h : Unmoved w w') (h' : Unmoved w' w'') : Unmoved w w'' where
  deposits := h'.deposits.trans h.deposits
  usages := h'.usages.trans h.usages
  accounts := h'.accounts.trans h.accounts
  claims := h'.claims.trans h.claims
  transfers := h'.transfers.trans h.transfers
  fundings := h'.fundings.trans h.fundings
  byKey := h'.byKey.trans h.byKey

/-- The requests that only ask, or wait. -/
def Looks : Request → Prop
  | .now | .isAborted | .isCancelled | .pause _ => True
  | .depositById _ | .depositByTransfer _ | .depositsIn _ => True
  | .accountByRail _ | .accountById _ | .listTransfers _ _ => True
  | _ => False

theorem look_unmoved (w : World) (call : StoreCall) (answer : World → α) :
    Unmoved w (w.look call answer).2 := by
  unfold look guarded
  split
  · exact { Unmoved.refl w with }
  · exact .refl w

theorem listTransfers_unmoved (w : World) (limit offset : Nat) :
    Unmoved w (w.perform (.listTransfers limit offset)).2 := by
  have htransfers := w.perform_transfers (r := .listTransfers limit offset)
    fun _ => Request.noConfusion
  have hdelayed := delayed_world
    { w.send (.list limit offset) with rail := (w.rail.list limit offset).2 } .railList
    (w.rail.list limit offset).1
  obtain ⟨c, hc, -⟩ := hdelayed
  have hw : (w.perform (.listTransfers limit offset)).2 = { w.send (.list limit offset) with
      rail := (w.rail.list limit offset).2, script := c } := hc
  rw [hw] at htransfers ⊢
  exact { Unmoved.refl w with transfers := htransfers }

theorem perform_looks {r : Request} (h : Looks r) (w : World) : Unmoved w (w.perform r).2 := by
  cases r with
  | depositById _ | depositByTransfer _ | depositsIn _ | accountByRail _ | accountById _ =>
      exact look_unmoved w _ _
  | listTransfers limit offset => exact listTransfers_unmoved w limit offset
  | now | isAborted | isCancelled | pause _ => exact { Unmoved.refl w with }
  | _ => exact h.elim

theorem looks_answered {r : Request} (h : Looks r) (w : World) : ∃ a, (w.perform r).1 = .ok a := by
  refine w.perform_ok ?_
  cases r with
  | incrementUsage _ _ _ | applyUsage _ _ _ => exact h.elim
  | _ => rfl

/-- No deposit, account or claim has changed, and the rail has at most made transfers, which are
pending. -/
structure Untouched (w w' : World) : Prop where
  deposits : w'.deposits = w.deposits
  accounts : w'.accounts = w.accounts
  claims : w'.claims = w.claims
  transfers : w.rail.transfers <+: w'.rail.transfers
  opened : ∀ t ∈ w'.rail.transfers, t ∈ w.rail.transfers ∨ t.state = .pending

theorem Untouched.refl (w : World) : Untouched w w :=
  ⟨rfl, rfl, rfl, List.prefix_rfl, fun _ => .inl⟩

theorem Untouched.trans (h : Untouched w w') (h' : Untouched w' w'') : Untouched w w'' where
  deposits := h'.deposits.trans h.deposits
  accounts := h'.accounts.trans h.accounts
  claims := h'.claims.trans h.claims
  transfers := h.transfers.trans h'.transfers
  opened t ht := (h'.opened t ht).elim (h.opened t) .inr

theorem Unmoved.untouched (h : Unmoved w w') : Untouched w w' where
  deposits := h.deposits
  accounts := h.accounts
  claims := h.claims
  transfers := h.transfers ▸ List.prefix_rfl
  opened t ht := by rw [h.transfers] at ht; exact .inl ht

/-! ## Calls in calm worlds -/

theorem listTransfers_of_calm (h : w.Calm 0) (limit offset : Nat) :
    ∃ ms w', w.perform (.listTransfers limit offset) =
        (.ok ⟨.ok (w.rail.page limit offset), ms⟩, w') ∧ w'.Calm ms ∧ Unmoved w w' := by
  let v : World := { w.send (.list limit offset) with
    rail := { w.rail with listCalls := w.rail.listCalls + 1 } }
  have hperform : w.perform (.listTransfers limit offset) =
      v.delayed .railList (.ok (w.rail.page limit offset)) := by
    simp only [perform, listTransfers, send, Rail.Sandbox.list_of_open h.lists]
    rfl
  have hcalm : v.Calm 0 := ⟨h.faultless, h.creates, h.lists, h.fundings, h.clear⟩
  obtain ⟨ms, c, hd, hcalm⟩ := hcalm.delayed (ε := Rail.ApiError) .railList
    (w.rail.page limit offset)
  exact ⟨ms, _, hperform.trans hd, hcalm, { Unmoved.refl w with }⟩

theorem createTransfer_of_calm (h : w.Calm 0) {o : Rail.Order} (ha : ¬ o.amount ≤ .zero) :
    ∃ t ms w', w.perform (.createTransfer o) = (.ok ⟨.ok t, ms⟩, w') ∧ w'.Calm ms ∧
      Untouched w w' ∧ w'.rail.findReference? o.reference = some t := by
  -- Whether the transfer is made or held, the answer only has to be awaited.
  suffices ∃ (v : World) (t : Rail.Transfer),
      w.perform (.createTransfer o) = v.delayed .railCreate (.ok t) ∧ v.Calm 0 ∧ Untouched w v by
    obtain ⟨v, t, hperform, hcalm, hv⟩ := this
    obtain ⟨ms, c, hd, hcalm⟩ := hcalm.delayed (ε := Rail.ApiError) .railCreate t
    have hp := hperform.trans hd
    refine ⟨t, ms, _, hp, hcalm, ⟨hv.deposits, hv.accounts, hv.claims, hv.transfers, hv.opened⟩, ?_⟩
    have hfind := findReference?_createTransfer (t := t) (congrArg Prod.fst hp) rfl
    rwa [hp] at hfind
  simp only [perform, createTransfer, send, freshId, Rail.Sandbox.create_of_open h.creates ha]
  let rail : Rail.Sandbox := { w.rail with createCalls := w.rail.createCalls + 1 }
  cases w.rail.findReference? o.reference with
  | some t =>
      exact ⟨{ w.send (.create o) with rail }, t, rfl,
        ⟨h.faultless, h.creates, h.lists, h.fundings, h.clear⟩, { Untouched.refl w with }⟩
  | none =>
      let t := Rail.Sandbox.opened o (w.ids w.drawn)
      refine ⟨{ w.send (.create o) with
          drawn := w.drawn + 1
          rail := { rail with transfers := w.rail.transfers ++ [t] } }, t, rfl,
        ⟨h.faultless, h.creates, h.lists, h.fundings, h.clear⟩,
        ⟨rfl, rfl, rfl, List.prefix_append .., fun t' ht' => ?_⟩⟩
      rcases List.mem_append.mp ht' with ht' | ht'
      · exact .inl ht'
      · obtain rfl := List.mem_singleton.mp ht'
        exact .inr rfl

theorem fundAccount_of_serving (h : w.Serving 0) (key account : String) {amount : Decimal}
    (ha : ¬ amount ≤ .zero) :
    ∃ ref ms w', w.perform (.fundAccount key account amount) = (.ok ⟨.ok ref, ms⟩, w') ∧
      w'.Serving ms ∧ Untouched w w' ∧ w'.rail = w.rail := by
  suffices ∃ (v : World) (ref : String),
      w.perform (.fundAccount key account amount) = v.delayed .brokerageFund (.ok ref) ∧
        v.Serving 0 ∧ Untouched w v ∧ v.rail = w.rail by
    obtain ⟨v, ref, hperform, hserving, hv, hrail⟩ := this
    obtain ⟨ms, c, hd, hserving⟩ := hserving.delayed (ε := Failure) .brokerageFund ref
    exact ⟨ref, ms, _, hperform.trans hd, hserving,
      ⟨hv.deposits, hv.accounts, hv.claims, hv.transfers, hv.opened⟩, hrail⟩
  have hserving : ∀ {drawn : Nat} {brokerage : Brokerage.Sandbox},
      brokerage.failures = w.brokerage.failures →
      Serving { w.send (.fund key account amount) with drawn, brokerage } 0 := fun hf =>
    ⟨h.faultless, hf.trans h.fundings, h.clear⟩
  simp only [perform, fundAccount, send, freshId, Brokerage.Sandbox.fund, h.fundings, if_neg ha]
  cases hk : w.brokerage.byKey.get? key with
  | some ref => exact ⟨_, ref, rfl, hserving h.fundings.symm, { Untouched.refl w with }, rfl⟩
  | none => exact ⟨_, _, rfl, hserving h.fundings.symm, { Untouched.refl w with }, rfl⟩

theorem fundAccount_of_calm (h : w.Calm 0) (key account : String) {amount : Decimal}
    (ha : ¬ amount ≤ .zero) :
    ∃ ref ms w', w.perform (.fundAccount key account amount) = (.ok ⟨.ok ref, ms⟩, w') ∧
      w'.Calm ms ∧ Untouched w w' := by
  obtain ⟨ref, ms, w', hperform, hserving, huntouched, hrail⟩ :=
    fundAccount_of_serving h.serving key account ha
  exact ⟨ref, ms, w', hperform, hserving.calm (by rw [hrail]; exact h.creates)
    (by rw [hrail]; exact h.lists), huntouched⟩

end World

end Causeway
