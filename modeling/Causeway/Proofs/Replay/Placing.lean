import Causeway.Proofs.Decimal.Rounding
import Causeway.Proofs.Replay.Steady

/-!
# The placing of a deposit

Where nothing stands in its way, a row's deposit is refused by the provider (`Ready.run_refused`) or
comes onto the rail (`Ready.run_accepted`), waits there, fails or comes to the end of its way, as its
transfer does (`Ready.run_failed`, `Ready.run_completed`). In each case the world is left as a placing
leaves it.
-/

namespace Causeway

/-! ## Settings that can work -/

/-- What a replay needs of its settings. -/
structure Settings.Workable (s : Settings) : Prop where
  rate_nonneg : ¬ s.provider.feeRate < .zero
  rate_lt_one : s.provider.feeRate < .one
  page : s.provider.listPageSize ≠ 0

theorem Settings.workable_of_valid {s : Settings} (h : s.validate = .ok ()) : s.Workable := by
  have hnone : s.fault? = none := by
    unfold validate at h
    cases hf : s.fault? with
    | none => rfl
    | some fault => rw [hf] at h; cases h
  unfold fault? at hnone
  split at hnone
  · cases hnone
  split at hnone
  · cases hnone
  split at hnone
  · cases hnone
  split at hnone
  · cases hnone
  rename_i hrate
  split at hnone
  · cases hnone
  split at hnone
  · cases hnone
  rename_i hpage
  exact ⟨fun h => hrate (.inl h), Int.not_le.mp fun h => hrate (.inr h), hpage⟩

theorem Settings.validate_standard : Settings.standard.validate = .ok () := by
  have hnone : Settings.standard.fault? = none := by decide +kernel
  unfold validate
  rw [hnone]

namespace Replay

open Crossing (AtRest Pending begun initiated arrived inArrival settledBy paidAndCounted)
open Rail (Transfer)

variable {s : Settings} {w : World} {row : Instruction} {a : VirtualAccount}

theorem stored_of_accountByRail? (h : Steady s w) {railAccount : String}
    (ha : w.accountByRail? railAccount = some a) : w.accounts.get? a.id = some a := by
  obtain ⟨id, hid⟩ := (Table.mem_values_iff h.named).mp (List.mem_of_find?_eq_some ha)
  rw [(h.accounts id a hid).1]
  exact hid

/-! ## Deposits without an obstacle -/

/-- Nothing stands in the way of a new deposit for the row. -/
structure Ready (s : Settings) (w : World) (row : Instruction) (a : VirtualAccount) : Prop where
  steady : Steady s w
  fresh : w.FreshFor 2
  named : Text.isBlankText row.reference = false
  account : w.accountByRail? row.railAccount = some a
  user : a.user = row.user
  unused : ¬ w.deposits.byReference.contains row.reference
  large : .one ≤ row.amount.value
  countable : ∀ id now, id ∉ w.usages.applied →
    (w.usages.apply row.user id row.amount.value now).1 = .ok (.ok true)

/-- What the row asks of the provider. -/
def asks (s : Settings) (row : Instruction) : Conversion.Request :=
  { direction := s.crossing.direction
    amount := row.amount
    currency := s.crossing.currency
    destinationCurrency := s.crossing.destinationCurrency
    key := row.reference }

namespace Ready

variable (h : Ready s w row a)
include h

theorem free : w.deposits.Free (begun s w a row.amount row.reference) where
  id := h.steady.deposit_new (h.fresh.not_drawn (n := 0) (by decide))
  reference := (h.steady.reference_new h.unused).1
  transfer := nofun

theorem free_initiated : w.deposits.Free (initiated s w a row.amount row.reference) := by
  refine ⟨h.free.id, h.free.reference, ?_⟩
  rintro t ⟨⟩
  exact h.steady.link_new (h.fresh.not_drawn (by decide))

theorem run_refused {f : Failure} (hv : s.provider.validate (asks s row) = .error f) :
    let d := (begun s w a row.amount row.reference).after (.failed f.message)
      (w.clock (w.readings + 1))
    w.run (Crossing.initiate s row.user row.railAccount row.amount row.reference).run =
        (.ok (.error f), { w.asked.ticked with deposits := w.deposits.put d }) ∧
      Placed w { w.asked.ticked with deposits := w.deposits.put d } d := by
  have hfree := h.free
  refine ⟨Crossing.run_initiate_refused h.steady.plain h.named h.account h.user hfree hv, ?_⟩
  exact
    { plain := h.steady.plain.congr rfl rfl rfl rfl rfl
      claims := rfl
      feeRate := rfl
      accounts := rfl
      users := rfl
      ids := rfl
      drawn := Nat.lt_succ_self _
      id_eq := rfl
      free := hfree.after nofun
      coherent := (Deposit.coherent_start ..).advance (e := .failed f.message) (.inl rfl)
      deposits := rfl
      rest := .failed rfl
      links := nofun
      transfers := .inl rfl
      keys := .inl rfl
      applied := .inl rfl }

/-- The world once the row's deposit is on the rail. -/
def onRail (s : Settings) (w : World) (row : Instruction) (a : VirtualAccount) : World :=
  { (w.asked.ordered (s.provider.order (asks s row))).ticked with
    deposits := w.deposits.put (initiated s w a row.amount row.reference) }

/-- The transfer that is made for the row's deposit. -/
def opened (s : Settings) (w : World) (row : Instruction) : Transfer :=
  Rail.Sandbox.opened (s.provider.order (asks s row)) (w.ids (w.drawn + 1))

omit h in
theorem transfers_onRail (s : Settings) (w : World) (row : Instruction) (a : VirtualAccount) :
    (onRail s w row a).rail.transfers = w.rail.transfers ++ [opened s w row] := rfl

theorem opened_new : ∀ t ∈ w.rail.transfers, t.id ≠ (opened s w row).id :=
  h.steady.transfer_new (h.fresh.not_drawn (by decide))

theorem holding : (onRail s w row a).Holding w.deposits (initiated s w a row.amount row.reference) :=
  ⟨h.steady.plain.congr rfl rfl rfl rfl rfl, rfl, h.free_initiated⟩

theorem run_accepted (hv : s.provider.validate (asks s row) = .ok ()) :
    w.run (Crossing.initiate s row.user row.railAccount row.amount row.reference).run =
      (.ok (.ok (initiated s w a row.amount row.reference)), onRail s w row a) :=
  Crossing.run_initiate_accepted h.steady.plain h.named h.account h.user h.free hv
    (h.steady.reference_new h.unused).2 (h.steady.link_new (h.fresh.not_drawn (by decide)))

theorem placed_pending : Placed w (onRail s w row a) (initiated s w a row.amount row.reference) where
  plain := h.holding.plain
  claims := rfl
  feeRate := rfl
  accounts := rfl
  users := rfl
  ids := rfl
  drawn := Nat.lt_succ_of_lt (Nat.lt_succ_self _)
  id_eq := rfl
  free := h.free_initiated
  coherent := (Deposit.coherent_start ..).advance (e := .railInitiated _) rfl
  deposits := rfl
  rest := by
    refine .waiting _ rfl rfl fun t ht hid => ?_
    rw [transfers_onRail] at ht
    rcases List.mem_append.mp ht with ht | ht
    · exact absurd hid (h.opened_new t ht)
    · obtain rfl := List.mem_singleton.mp ht
      rfl
  links := by
    rintro t ⟨⟩
    exact ⟨Nat.lt_succ_self _, rfl⟩
  transfers := .inr ⟨_, rfl, Nat.lt_succ_self _, rfl, rfl⟩
  keys := .inl rfl
  applied := .inl rfl

/-! ### Its settlement -/

/-- The world once the row's transfer is what has become of it. -/
def settledOn (s : Settings) (w : World) (row : Instruction) (a : VirtualAccount) (t : Transfer) :
    World :=
  { onRail s w row a with
    rail := { (onRail s w row a).rail with transfers := w.rail.transfers ++ [t] } }

theorem setTransferState_onRail (state : Rail.State) :
    (onRail s w row a).setTransferState (opened s w row).id state =
      (.ok (.ok { opened s w row with state }),
        settledOn s w row a { opened s w row with state }) := by
  have hfind := Rail.Sandbox.find?_latest (transfers_onRail s w row a)
    h.opened_new
  have hreplace : Rail.Sandbox.replaceFirst (opened s w row).id { opened s w row with state }
      (w.rail.transfers ++ [opened s w row]) = w.rail.transfers ++ [{ opened s w row with state }] :=
    Rail.Sandbox.replaceFirst_latest h.opened_new
  simp only [World.setTransferState, Rail.Sandbox.setState?, hfind, Option.map_some,
    transfers_onRail, hreplace]
  rfl

theorem completeTransfer_onRail :
    (onRail s w row a).completeTransfer (opened s w row).id =
      match Rail.Sandbox.settled w.rail.feeRate (opened s w row) with
      | .ok t => (.ok (.ok t), settledOn s w row a t)
      | .error o => (.error o, settledOn s w row a
          (Rail.Sandbox.interrupted w.rail.feeRate (opened s w row))) := by
  have hfind := Rail.Sandbox.find?_latest (transfers_onRail s w row a)
    h.opened_new
  have hreplace : ∀ t', Rail.Sandbox.replaceFirst (opened s w row).id t'
      (w.rail.transfers ++ [opened s w row]) = w.rail.transfers ++ [t'] := fun t' =>
    Rail.Sandbox.replaceFirst_latest h.opened_new
  have hrate : (onRail s w row a).rail.feeRate = w.rail.feeRate := rfl
  simp only [World.completeTransfer, Rail.Sandbox.complete?, hfind, Option.map_some, hrate,
    transfers_onRail, hreplace]
  cases Rail.Sandbox.settled w.rail.feeRate (opened s w row) <;> rfl

/-- The world in which the news of the settlement arrives. -/
def informed (s : Settings) (w : World) (row : Instruction) (a : VirtualAccount) (t : Transfer) :
    World :=
  (settledOn s w row a t).ticked

theorem holding_informed (t : Transfer) :
    (informed s w row a t).Holding w.deposits (initiated s w a row.amount row.reference) :=
  ⟨h.steady.plain.congr rfl rfl rfl rfl rfl, rfl, h.free_initiated⟩

/-- That transfer once it has failed. -/
def failing (s : Settings) (w : World) (row : Instruction) : Transfer :=
  { opened s w row with state := .failed }

theorem run_failed (hs : s.Workable) :
    let d := (initiated s w a row.amount row.reference).after
      (.failed "transfer reported as Failed") (w.clock (w.readings + 3))
    ∃ w', (informed s w row a (failing s w row)).run
        (Crossing.callback s (failing s w row).id).run =
          (.ok (.ok (.advanced .railInitiated .failed)), w') ∧
      Placed w w' d ∧ w'.usages = w.usages ∧ w'.clock = w.clock ∧ w.readings ≤ w'.readings ∧
        w'.drawn = w.drawn + 2 := by
  intro d
  have hrun := Crossing.run_callback_failed (h.holding_informed (failing s w row)) rfl rfl hs.page
    rfl rfl
  refine ⟨_, hrun, ?_, rfl, rfl, Nat.le_add_right _ 4, rfl⟩
  exact
    { plain := h.steady.plain.congr rfl rfl rfl rfl rfl
      claims := rfl
      feeRate := rfl
      accounts := rfl
      users := rfl
      ids := rfl
      drawn := Nat.lt_succ_of_lt (Nat.lt_succ_self _)
      id_eq := rfl
      free := h.free_initiated.after (e := .failed "transfer reported as Failed") nofun
      coherent := ((Deposit.coherent_start ..).advance (e := .railInitiated _) rfl).advance
        (e := .failed "transfer reported as Failed") (.inr (.inl rfl))
      deposits := rfl
      rest := .failed rfl
      links := by
        rintro t ⟨⟩
        exact ⟨Nat.lt_succ_self _, rfl⟩
      transfers := .inr ⟨_, rfl, Nat.lt_succ_self _, rfl, rfl⟩
      keys := .inl rfl
      applied := .inl rfl }

/-- What arrives of an amount of one or more can be paid in. -/
theorem received_pos (hs : s.Workable) {fee received : Decimal}
    (hfee : row.amount.value.mul s.provider.feeRate = .ok fee)
    (hreceived : row.amount.value.sub fee = .ok received) : ¬ received ≤ .zero := by
  have hlt := Decimal.fee_lt h.large hs.rate_nonneg hs.rate_lt_one hfee
  have hpos := Decimal.sub_pos hlt hreceived
  rw [Decimal.le_iff, Decimal.value_zero]
  exact not_le.mpr hpos

/-- The deposit at the end of its way. -/
def ended (s : Settings) (w : World) (row : Instruction) (a : VirtualAccount) (t : Transfer) :
    Deposit :=
  settledBy
    (inArrival s (informed s w row a t) w.deposits (initiated s w a row.amount row.reference) t)
    (arrived (informed s w row a t) (initiated s w a row.amount row.reference) t)

/-- The world once the row's deposit has come to the end of its way. -/
def closed (s : Settings) (w : World) (row : Instruction) (a : VirtualAccount) (t : Transfer) :
    World :=
  let d := ended s w row a t
  let reference := Brokerage.Sandbox.referenceOf (w.ids (w.drawn + 2))
  { w with
    readings := w.readings + 7
    drawn := w.drawn + 3
    deposits := w.deposits.put d
    usages := (w.usages.apply a.user d.id row.amount.value (w.clock (w.readings + 5))).2
    rail := { w.rail with
      createCalls := w.rail.createCalls + 1
      listCalls := w.rail.listCalls + 1
      transfers := w.rail.transfers ++ [t] }
    brokerage := { w.brokerage with
      calls := w.brokerage.calls + 1
      fundings := w.brokerage.fundings ++ [⟨reference, a.brokerageAccount, d.settledAmount⟩]
      byKey := w.brokerage.byKey.insert d.id.toText reference }
    outbound := .fund d.id.toText a.brokerageAccount d.settledAmount
      :: .list s.provider.listPageSize 0 :: .create (s.provider.order (asks s row)) :: w.outbound }

omit h in
theorem closed_eq (t : Transfer) :
    paidAndCounted
      (inArrival s (informed s w row a t) w.deposits (initiated s w a row.amount row.reference) t)
      w.deposits (arrived (informed s w row a t) (initiated s w a row.amount row.reference) t)
      a.brokerageAccount = closed s w row a t := by
  simp only [paidAndCounted, inArrival, informed, settledOn, onRail, World.paidIn, World.listed,
    World.ticked, World.ordered, World.asked, World.send]
  rfl

theorem placed_closed {t : Transfer} (hid : t.id = (opened s w row).id)
    (href : t.reference = row.reference)
    (happly : (w.usages.apply a.user (w.ids w.drawn) row.amount.value
      (w.clock (w.readings + 5))).1 = .ok (.ok true)) :
    Placed w (closed s w row a t) (ended s w row a t) where
  plain := h.steady.plain.congr rfl rfl rfl rfl rfl
  claims := rfl
  feeRate := rfl
  accounts := rfl
  users := rfl
  ids := rfl
  drawn := Nat.lt_add_of_pos_right (by decide)
  id_eq := rfl
  free := ((h.free_initiated.after (e := .railCompleted t.destination.amount) nofun).after
    (e := .brokerFunded _) nofun).after (e := .usageRecorded) nofun
  coherent := ((((Deposit.coherent_start ..).advance (e := .railInitiated _) rfl).advance
    (e := .railCompleted t.destination.amount) rfl).advance (e := .brokerFunded _) rfl).advance
    (e := .usageRecorded) rfl
  deposits := rfl
  rest := .counted rfl nofun
  links := by
    rintro t ⟨⟩
    exact ⟨Nat.add_lt_add_left (by decide) _, rfl⟩
  transfers := .inr ⟨t, rfl, Nat.add_lt_add_left (by decide) _, hid, href⟩
  keys := .inr ⟨_, rfl⟩
  applied := .inr (Store.Usages.applied_apply happly)

theorem run_completed (hs : s.Workable) {t : Transfer}
    (ht : Rail.Sandbox.settled s.provider.feeRate (opened s w row) = .ok t) :
    (informed s w row a t).run (Crossing.callback s t.id).run =
        (.ok (.ok (.advanced .railInitiated .brokerFunded)), closed s w row a t) ∧
      Placed w (closed s w row a t) (ended s w row a t) := by
  obtain ⟨fee, received, hfee, hreceived, hstate, hdest⟩ := Rail.Sandbox.settled_eq_ok ht
  have horigin := Rail.Sandbox.origin_settled ht
  have hid : t.id = (opened s w row).id := congrArg Transfer.Origin.id horigin
  have href : t.reference = row.reference := congrArg Transfer.Origin.reference horigin
  have hpos : ¬ (arrived (informed s w row a t) (initiated s w a row.amount row.reference)
      t).settledAmount ≤ .zero := by
    have hsettled : (arrived (informed s w row a t) (initiated s w a row.amount row.reference)
        t).settledAmount = t.destination.amount.getD row.amount.value := rfl
    rw [hsettled, hdest]
    exact h.received_pos hs hfee hreceived
  have hnew : ¬ w.Drawn (w.ids w.drawn) := h.fresh.not_drawn (n := 0) (by decide)
  have hstored : w.accounts.get? a.id = some a := stored_of_accountByRail? h.steady h.account
  have happly : (w.usages.apply a.user (w.ids w.drawn) row.amount.value
      (w.clock (w.readings + 5))).1 = .ok (.ok true) := by
    rw [h.user]
    exact h.countable _ _ (h.steady.applied_new hnew)
  have hrun := Crossing.run_callback_completed (h.holding_informed t) rfl
    (congrArg some hid.symm) hs.page rfl hstate h.steady.unclaimed hstored hpos
    (h.steady.key_new hnew) happly
  rw [closed_eq] at hrun
  exact ⟨hrun, h.placed_closed hid href happly⟩

end Ready

end Replay

end Causeway
