import Causeway.Proofs.Deposit.Moves
import Causeway.Proofs.Store.Deposits
import Causeway.Proofs.Store.Whole
import Causeway.Proofs.World.Changes

/-!
# What belongs to one deposit

Beside the record of a deposit, the count of its user, a transfer under its reference and a funding
under its key belong to it, each once at most (`ChangesOnly`). A request that concerns the deposit
changes nothing else: what has been counted, ordered or paid in before is not done again
(`ChangesOnly.apply`, `ChangesOnly.order`, `ChangesOnly.fund`).
-/

namespace Causeway

open Deposit (Status)

/-! ## Counting once -/

namespace Quota

variable {u : Usage} {amount : Decimal} {now : Instant}

/-- Both sums have taken the amount, and their periods end when they did. -/
def Meter.Took (m : Meter) (amount : Decimal) (m' : Meter) : Prop :=
  ∀ p, (m'.during p).resetAt = (m.during p).resetAt ∧
    (m.during p).used.add amount = .ok (m'.during p).used

theorem Meter.took_of_add (m : Meter) (amount : Decimal) (h : (m.add amount).2 = none) :
    m.Took amount (m.add amount).1 := by
  rcases m.add_cases amount with
    ⟨o, -, hadd⟩ | ⟨daily, o, -, -, hadd⟩ | ⟨daily, monthly, hdaily, hmonthly, hadd⟩
  · simp [hadd] at h
  · simp [hadd] at h
  · rw [hadd]
    intro p
    cases p with
    | daily => exact ⟨rfl, hdaily⟩
    | monthly => exact ⟨rfl, hmonthly⟩

theorem Usage.add_deposit_eq (h : (u.add .deposit amount now).2 = none) :
    ∃ m, (u.roll now).deposit.Took amount m ∧
      (u.add .deposit amount now).1 = { u.roll now with deposit := m, updatedAt := now } := by
  have htook := (u.roll now).deposit.took_of_add amount
  simp only [Usage.add, Usage.meter] at h ⊢
  generalize (u.roll now).deposit.add amount = x at *
  obtain ⟨m, _ | o⟩ := x
  · exact ⟨m, htook rfl, rfl⟩
  · cases h

end Quota

namespace Store.Usages

open Quota

variable {s : Usages} {user deposit : Uuid} {amount : Decimal} {now : Instant}

/-- The deposit has been noted, and the record of its user is the rolled one, but for the deposits'
counters, which have taken the amount. -/
structure Counted (s : Usages) (user deposit : Uuid) (amount : Decimal) (now : Instant)
    (s' : Usages) : Prop where
  new : deposit ∉ s.applied
  applied : s'.applied = s.applied ++ [deposit]
  record : ∃ m, ((s.entry user now).roll now).deposit.Took amount m ∧
    s'.byUser = s.byUser.insert user
      { (s.entry user now).roll now with deposit := m, updatedAt := now }

theorem apply_counted {a : Except Failure Bool}
    (h : (s.apply user deposit amount now).1 = .ok a) :
    (s.apply user deposit amount now).2 = s ∨
      s.Counted user deposit amount now (s.apply user deposit amount now).2 := by
  rcases apply_cases s user deposit amount now with ⟨-, he⟩ | ⟨-, he⟩ | ⟨-, hnew, hs, hr⟩
  · exact .inl (by rw [he])
  · exact .inl (by rw [he])
  · right
    rw [hr] at h
    cases hover : ((s.entry user now).add .deposit amount now).2 with
    | some o =>
        rw [hover] at h
        cases h
    | none =>
        obtain ⟨m, htook, hadd⟩ := Usage.add_deposit_eq hover
        rw [hs, hadd]
        exact ⟨hnew, rfl, m, htook, rfl⟩

end Store.Usages

namespace World

variable {w₀ w w' w'' : World} {d d' : Deposit} {r : Request}

/-! ## Each once at most -/

/-- Nothing of what is stored, ordered or paid has changed. -/
structure Unchanged (w w' : World) : Prop where
  deposits : w'.deposits = w.deposits
  usages : w'.usages = w.usages
  accounts : w'.accounts = w.accounts
  transfers : w'.rail.transfers = w.rail.transfers
  fundings : w'.brokerage.fundings = w.brokerage.fundings
  byKey : w'.brokerage.byKey = w.brokerage.byKey

theorem Unchanged.refl (w : World) : Unchanged w w := ⟨rfl, rfl, rfl, rfl, rfl, rfl⟩

theorem Unchanged.trans (h : Unchanged w w') (h' : Unchanged w' w'') : Unchanged w w'' where
  deposits := h'.deposits.trans h.deposits
  usages := h'.usages.trans h.usages
  accounts := h'.accounts.trans h.accounts
  transfers := h'.transfers.trans h.transfers
  fundings := h'.fundings.trans h.fundings
  byKey := h'.byKey.trans h.byKey

theorem unchanged_of_quiet (hq : Quiet w (w.perform r).2) (h : ∀ o, r ≠ .createTransfer o) :
    Unchanged w (w.perform r).2 :=
  ⟨hq.deposits, hq.usages, w.perform_accounts r, w.perform_transfers h, hq.fundings, hq.byKey⟩

/-- The deposit has been counted once at most, at a time that the clock has shown meanwhile. -/
def CountedOnce (d : Deposit) (w w' : World) : Prop :=
  w'.usages = w.usages ∨ ∃ n, w.readings ≤ n ∧ n < w'.readings ∧
    w.usages.Counted d.user d.id d.amount.value (w.clock n) w'.usages

/-- One transfer has been made at most, under the reference. -/
def OrderedOnce (reference : String) (w w' : World) : Prop :=
  w'.rail.transfers = w.rail.transfers ∨
    ∃ t, t.reference = reference ∧ w'.rail.transfers = w.rail.transfers ++ [t]

/-- The deposit has been paid in once at most, under its key, with what it has settled at and into
its account. -/
def PaidOnce (d : Deposit) (w w' : World) : Prop :=
  w'.brokerage.fundings = w.brokerage.fundings ∧ w'.brokerage.byKey = w.brokerage.byKey ∨
    ∃ a reference, w.accounts.get? d.account = some a ∧ d.Settled ∧
      w.brokerage.byKey.get? d.id.toText = none ∧
      w'.brokerage.byKey = w.brokerage.byKey.insert d.id.toText reference ∧
      w'.brokerage.fundings =
        w.brokerage.fundings ++ [⟨reference, a.brokerageAccount, d.settledAmount⟩]

/-- Nothing has changed but what belongs to one deposit, which is stored as `d` now. -/
structure ChangesOnly (d : Deposit) (w w' : World) : Prop where
  stored : w'.deposits.get? d.id = some d
  leads : ∀ d₀, w.deposits.get? d.id = some d₀ → d₀.Leads d
  others : SameBut d.id w w'
  accounts : w'.accounts = w.accounts
  counted : CountedOnce d w w'
  ordered : OrderedOnce d.reference w w'
  paid : PaidOnce d w w'

theorem Unchanged.changesOnly (h : Unchanged w w') (hd : w'.deposits.get? d.id = some d) :
    ChangesOnly d w w' where
  stored := hd
  leads d₀ hd₀ := by
    rw [← h.deposits, hd] at hd₀
    cases hd₀
    exact .refl
  others _ _ := by rw [h.deposits]
  accounts := h.accounts
  counted := .inl h.usages
  ordered := .inl h.transfers
  paid := .inl ⟨h.fundings, h.byKey⟩

namespace ChangesOnly

/-! ## Requests that concern the deposit -/

theorem unchanged (h : ChangesOnly d w₀ w) (hw : Unchanged w w') (hr : w.readings ≤ w'.readings) :
    ChangesOnly d w₀ w' where
  stored := by rw [hw.deposits]; exact h.stored
  leads := h.leads
  others id hne := by rw [hw.deposits]; exact h.others id hne
  accounts := hw.accounts.trans h.accounts
  counted := by
    rcases h.counted with hsame | ⟨n, hle, hlt, hcounted⟩
    · exact .inl (hw.usages.trans hsame)
    · rw [CountedOnce, hw.usages]
      exact .inr ⟨n, hle, by omega, hcounted⟩
  ordered := by
    rw [OrderedOnce, hw.transfers]
    exact h.ordered
  paid := by
    rw [PaidOnce, hw.fundings, hw.byKey]
    exact h.paid

theorem update {expected : Status} {deposits : Store.Deposits} (h : ChangesOnly d w₀ w)
    (hm : d.Moves d') (hu : w.deposits.update d' expected = .ok deposits) :
    ChangesOnly d' w₀ { w with deposits } := by
  have hl : d.Leads d' := .single hm
  have hid : d'.id = d.id := hl.id_eq
  have href : d'.reference = d.reference := congrArg Deposit.Origin.reference hl.origin
  refine ⟨Store.Deposits.get?_update_self hu, fun d₀ hd₀ => ?_, fun id hne => ?_, h.accounts, ?_,
    ?_, ?_⟩
  · rw [hid] at hd₀
    exact (h.leads d₀ hd₀).trans hl
  · rw [hid] at hne
    rw [Store.Deposits.get?_update hu, hid, if_neg hne.symm]
    exact h.others id hne
  · rw [CountedOnce, hid, hl.user_eq, hl.amount_eq]
    exact h.counted
  · rw [href]
    exact h.ordered
  · rcases h.paid with hsame | ⟨a, reference, ha, hset, hnew, hkey, hfund⟩
    · exact .inl hsame
    · obtain ⟨hset', hamount⟩ := hl.settled hset
      refine .inr ⟨a, reference, ?_, hset', ?_, ?_, ?_⟩
      · rw [hl.account_eq]; exact ha
      · rw [hid]; exact hnew
      · rw [hid]; exact hkey
      · rw [hamount]; exact hfund

theorem apply {usages : Store.Usages} {a : Except Failure Bool} (h : ChangesOnly d w₀ w)
    (hclock : w.clock = w₀.clock) (hreadings : w₀.readings ≤ w.readings)
    (hr : w.usages.apply d.user d.id d.amount.value (w.clock w.readings) = (.ok a, usages)) :
    ChangesOnly d w₀ { w with readings := w.readings + 1, usages } := by
  refine { h with counted := ?_ }
  rcases h.counted with hsame | ⟨n, hle, hlt, hcounted⟩
  · have hcases := Store.Usages.apply_counted (congrArg Prod.fst hr)
    rw [hr, hsame, hclock] at hcases
    rcases hcases with hkept | hcounted
    · exact .inl hkept
    · exact .inr ⟨w.readings, hreadings, Nat.lt_succ_self _, hcounted⟩
  · have hmem : d.id ∈ w.usages.applied := by simp [hcounted.applied]
    rw [Store.Usages.apply_of_mem (Decimal.not_le_zero d.amount) hmem] at hr
    cases hr
    exact .inr ⟨n, hle, Nat.lt_succ_of_lt hlt, hcounted⟩

theorem order {o : Rail.Order} (h : ChangesOnly d w₀ w) (ho : d.reference = o.reference) :
    ChangesOnly d w₀ (w.perform (.createTransfer o)).2 := by
  have hq := w.createTransfer_quiet o
  have haccounts := w.perform_accounts (.createTransfer o)
  obtain ⟨_, -, hcases⟩ := w.createTransfer_cases o
  generalize (w.perform (.createTransfer o)).2 = w' at *
  rcases hcases with ⟨hsame, -⟩ | ⟨hnew, -, hmade, -⟩
  · exact h.unchanged ⟨hq.deposits, hq.usages, haccounts, hsame, hq.fundings, hq.byKey⟩ hq.readings
  · -- Nothing has been ordered under the reference before, so this is the first transfer.
    have hnone : w.rail.transfers = w₀.rail.transfers := by
      rcases h.ordered with hsame | ⟨t, ht, hmade⟩
      · exact hsame
      · rw [Rail.Sandbox.findReference?, List.find?_eq_none] at hnew
        have := hnew t (by rw [hmade]; simp)
        simp [ht, ho] at this
    have hkept : ChangesOnly d w₀ { w' with rail := w.rail } := h.unchanged
      ⟨hq.deposits, hq.usages, haccounts, rfl, hq.fundings, hq.byKey⟩ hq.readings
    refine { hkept with ordered := .inr ⟨_, ?_, hmade.trans (by rw [hnone])⟩ }
    exact ho.symm

theorem fund {a : VirtualAccount} (h : ChangesOnly d w₀ w) (hset : d.Settled)
    (ha : w.accounts.get? d.account = some a) :
    ChangesOnly d w₀
      (w.perform (.fundAccount d.id.toText a.brokerageAccount d.settledAmount)).2 := by
  have htransfers := w.perform_transfers
    (r := .fundAccount d.id.toText a.brokerageAccount d.settledAmount) fun _ => Request.noConfusion
  have haccounts := w.perform_accounts
    (.fundAccount d.id.toText a.brokerageAccount d.settledAmount)
  have hcases := w.fundAccount_cases d.id.toText a.brokerageAccount d.settledAmount
  generalize (w.perform (.fundAccount d.id.toText a.brokerageAccount d.settledAmount)).2 = w' at *
  rcases hcases with ⟨_, -, hq, -⟩ | ⟨_, -, hnew, hq, -, hfund, hkey⟩
  · exact h.unchanged ⟨hq.deposits, hq.usages, haccounts, htransfers, hq.fundings, hq.byKey⟩
      hq.readings
  · -- The key had not been used, so nothing has been paid under it before.
    have hkept : ChangesOnly d w₀ { w' with brokerage := w.brokerage } := h.unchanged
      ⟨hq.deposits, hq.usages, haccounts, htransfers, rfl, rfl⟩ hq.readings
    have hnone : w.brokerage.fundings = w₀.brokerage.fundings ∧
        w.brokerage.byKey = w₀.brokerage.byKey := by
      rcases h.paid with hsame | ⟨_, _, -, -, -, hpaid, -⟩
      · exact hsame
      · rw [hpaid, Table.get?_insert_self] at hnew
        cases hnew
    rw [hnone.2] at hnew hkey
    rw [hnone.1] at hfund
    rw [h.accounts] at ha
    exact { hkept with paid := .inr ⟨a, _, ha, hset, hnew, hkey, hfund⟩ }

end ChangesOnly

end World

end Causeway
