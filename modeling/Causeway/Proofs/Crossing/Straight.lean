import Causeway.Proofs.Crossing.Resume
import Causeway.Proofs.Store.Growth
import Causeway.Proofs.World.Plain

/-!
# The straight way

What the operations do with a deposit in a plain world, told in full: how it comes onto the rail or
is refused (`run_startRail_accepted`, `run_startRail_refused`), how it is paid in and counted
(`run_fund`), and what news of its transfer leads to (`run_callback_completed`,
`run_callback_failed`).
-/

namespace Causeway

namespace World

variable {w : World} {deposits : Store.Deposits} {d : Deposit} {e : Deposit.Event}

/-- The instant that the next reading of the clock gives. -/
def now (w : World) : Instant := w.clock w.readings

def ticked (w : World) : World := { w with readings := w.readings + 1 }

/-- The world once an instant and an identifier have been asked for, as a new deposit needs them. -/
def asked (w : World) : World := { w with readings := w.readings + 1, drawn := w.drawn + 1 }

/-- A plain world that holds a deposit besides those of a store to which it is new. -/
structure Holding (w : World) (deposits : Store.Deposits) (d : Deposit) : Prop where
  plain : w.Plain
  deposits_eq : w.deposits = deposits.put d
  free : deposits.Free d

theorem Holding.get? (h : w.Holding deposits d) : w.deposits.get? d.id = some d := by
  rw [h.deposits_eq, Store.Deposits.get?_put_self]

theorem Holding.after (h : w.Holding deposits d) (he : deposits.LinksNew d e) (instant : Instant) :
    Holding { w with deposits := deposits.put (d.after e instant) } deposits (d.after e instant) :=
  ⟨h.plain.congr rfl rfl rfl rfl rfl, rfl, h.free.after he⟩

end World

namespace Crossing

open Deposit (Event Status)
open Rail (Transfer)

variable {s : Settings} {w : World} {d : Deposit} {deposits : Store.Deposits} {e : Event}
  {t : Transfer} {a : VirtualAccount}

/-! ## Changes of a deposit -/

theorem run_mark_now (h : d.Allows e) :
    w.run (mark d e).run = (.ok (.ok (d.after e w.now)), w.ticked) :=
  run_mark h

theorem run_update (hw : w.Holding deposits d) (he : deposits.LinksNew d e) (instant : Instant) :
    w.run (update (d.after e instant) d.status).run =
      (.ok (.ok ()), { w with deposits := deposits.put (d.after e instant) }) := by
  refine hw.plain.update ?_
  rw [hw.deposits_eq]
  exact Store.Deposits.update_after hw.free he

theorem run_persist (hw : w.Holding deposits d) (he : deposits.LinksNew d e) (instant : Instant) :
    w.run (persist (d.after e instant) d.status).run =
      (.ok (.ok true), { w with deposits := deposits.put (d.after e instant) }) := by
  unfold persist
  rw [World.run_seq (World.run_result (run_update hw he instant))]
  rfl

/-! ## Onto the rail -/

theorem run_order_accepted (hw : w.Plain) (hv : s.provider.validate (request s d) = .ok ())
    (hnew : w.rail.findReference? d.reference = none) :
    w.run (Action.retrying (policy s) (Provider.convert s.provider (request s d))).run =
      (.ok (.ok ((Rail.Sandbox.opened (s.provider.order (request s d)) (w.ids w.drawn)).response
        s.crossing.direction)), w.ordered (s.provider.order (request s d))) := by
  refine hw.retrying_ok ?_
  have horder := hw.order (o := s.provider.order (request s d)) (Decimal.not_le_zero d.amount) hnew
  have hcreate : w.run (Provider.createTransfer (s.provider.order (request s d))).run =
      (.ok (.ok (Rail.Sandbox.opened (s.provider.order (request s d)) (w.ids w.drawn))),
        w.ordered (s.provider.order (request s d))) := by
    unfold Provider.createTransfer
    rw [World.run_seq (World.run_lift horder)]
    rfl
  unfold Provider.convert
  rw [hv, World.run_seq (b := ()) rfl, World.run_seq hcreate]
  rfl

theorem run_order_refused (hw : w.Plain) {f : Failure}
    (hv : s.provider.validate (request s d) = .error f) :
    w.run (Action.retrying (policy s) (Provider.convert s.provider (request s d))).run =
      (.ok (.error f), w) := by
  refine hw.retrying_error ?_
    (ProviderSettings.refusal_of_validate hv).isRetryable
  unfold Provider.convert
  rw [hv]
  rfl

/-- A new deposit that the provider accepts is linked to a transfer of its own. -/
theorem run_startRail_accepted (hw : w.Holding deposits d) (hst : d.status = .created)
    (hv : s.provider.validate (request s d) = .ok ())
    (hnew : w.rail.findReference? d.reference = none)
    (he : deposits.LinksNew d (.railInitiated (Rail.Sandbox.idOf (w.ids w.drawn)))) :
    let d' := d.after (.railInitiated (Rail.Sandbox.idOf (w.ids w.drawn))) w.now
    w.run (startRail s d).run = (.ok (.ok d'),
      { (w.ordered (s.provider.order (request s d))).ticked with deposits := deposits.put d' }) := by
  intro d'
  have hmark : (w.ordered (s.provider.order (request s d))).run
      (mark d (.railInitiated (Rail.Sandbox.idOf (w.ids w.drawn)))).run =
        (.ok (.ok d'), (w.ordered (s.provider.order (request s d))).ticked) := run_mark_now hst
  have hholding : (w.ordered (s.provider.order (request s d))).ticked.Holding deposits d :=
    ⟨hw.plain.congr rfl rfl rfl rfl rfl, hw.deposits_eq, hw.free⟩
  have hupdate := run_update hholding he w.now
  rw [hst] at hupdate
  unfold startRail
  rw [World.run_seq (World.run_result (run_order_accepted hw.plain hv hnew))]
  refine (World.run_seq hmark).trans ?_
  exact World.run_seq hupdate

/-- A new deposit that the provider refuses fails. -/
theorem run_startRail_refused (hw : w.Holding deposits d) (hst : d.status = .created) {f : Failure}
    (hv : s.provider.validate (request s d) = .error f) :
    w.run (startRail s d).run = (.ok (.error f),
      { w.ticked with deposits := deposits.put (d.after (.failed f.message) w.now) }) := by
  have hcancelled := (ProviderSettings.refusal_of_validate hv).ne_cancelled
  have haborted : w.run (Program.request .isAborted) = (.ok false, w) :=
    World.run_ask w (by rw [World.perform, hw.plain.unaborted])
  have hholding : w.ticked.Holding deposits d :=
    ⟨hw.plain.congr rfl rfl rfl rfl rfl, hw.deposits_eq, hw.free⟩
  have hlinks : deposits.LinksNew d (.failed f.message) := by
    rintro t ⟨⟩
  have hupdate := run_update hholding hlinks w.now
  rw [hst] at hupdate
  unfold startRail
  rw [World.run_seq (World.run_result (run_order_refused hw.plain hv))]
  dsimp only
  rw [World.run_seq (World.run_lift haborted), if_neg (by simpa using hcancelled),
    World.run_seq (run_mark_now (e := .failed f.message) (.inl hst)),
    World.run_seq (World.run_result hupdate)]
  rfl

/-! ## Beginnings -/

variable {user : Uuid} {railAccount reference : String} {amount : Amount}

/-- The deposit that is begun for an account. -/
def begun (s : Settings) (w : World) (a : VirtualAccount) (amount : Amount) (reference : String) :
    Deposit :=
  .start (w.ids w.drawn) a.user a.id reference amount s.crossing.currency w.now

theorem run_accountByRail (hw : w.Plain) (ha : w.accountByRail? railAccount = some a) :
    w.run (Action.ask (Program.request (.accountByRail railAccount))).run =
      (.ok (.ok (some a)), w) := by
  rw [← ha]
  exact World.run_ask w (World.look_of_faultless hw.calm.faultless _ _)

theorem run_initiate_blank (h : Text.isBlankText reference) :
    w.run (initiate s user railAccount amount reference).run =
      (.ok (.error (.invalid .noReference)), w) := by
  unfold initiate
  rw [if_pos h]
  rfl

theorem run_initiate_foreign (hw : w.Plain) (hblank : Text.isBlankText reference = false)
    (ha : w.accountByRail? railAccount = some a) (huser : a.user ≠ user) :
    w.run (initiate s user railAccount amount reference).run =
      (.ok (.error (.invalid (.foreignAccount railAccount user))), w) := by
  unfold initiate
  rw [if_neg (by simp [hblank])]
  dsimp only
  rw [World.run_seq (run_accountByRail hw ha), World.run_seq (b := a) rfl, if_pos huser]
  rfl

/-- A new reference under the user's own account comes down to the creation of a deposit. -/
theorem run_initiate (hw : w.Plain) (hblank : Text.isBlankText reference = false)
    (ha : w.accountByRail? railAccount = some a) (huser : a.user = user) :
    let d := begun s w a amount reference
    w.run (initiate s user railAccount amount reference).run =
      w.asked.run (do Action.ask (Program.request (.createDeposit d)); startRail s d).run := by
  subst huser
  unfold initiate
  rw [if_neg (by simp [hblank])]
  dsimp only
  rw [World.run_seq (run_accountByRail hw ha), World.run_seq (b := a) rfl,
    if_neg (not_not_intro rfl)]
  rfl

theorem run_create_taken (hw : w.Plain) (h : w.deposits.byReference.contains d.reference) :
    w.run (Action.ask (Program.request (.createDeposit d))).run =
      (.ok (.error (.duplicateReference d.reference)), w) := by
  refine (hw.create d).trans ?_
  simp only [World.createDeposit, Store.Deposits.create, h, if_true]

theorem run_create (hw : w.Plain) (h : w.deposits.Free d) :
    w.run (Action.ask (Program.request (.createDeposit d))).run =
      (.ok (.ok ()), { w with deposits := w.deposits.put d }) := by
  refine (hw.create d).trans ?_
  simp only [World.createDeposit, Store.Deposits.create_of_free h]

theorem run_initiate_taken (hw : w.Plain) (hblank : Text.isBlankText reference = false)
    (ha : w.accountByRail? railAccount = some a) (huser : a.user = user)
    (h : w.deposits.byReference.contains reference) :
    w.run (initiate s user railAccount amount reference).run =
      (.ok (.error (.duplicateReference reference)), w.asked) := by
  have hasked : w.asked.Plain := hw.congr rfl rfl rfl rfl rfl
  rw [run_initiate hw hblank ha huser]
  exact World.run_seq_of_error (run_create_taken hasked h)

/-- The deposit on the rail, as it is after `initiate`. -/
def initiated (s : Settings) (w : World) (a : VirtualAccount) (amount : Amount)
    (reference : String) : Deposit :=
  (begun s w a amount reference).after
    (.railInitiated (Rail.Sandbox.idOf (w.ids (w.drawn + 1)))) (w.clock (w.readings + 1))

theorem run_initiate_accepted (hw : w.Plain) (hblank : Text.isBlankText reference = false)
    (ha : w.accountByRail? railAccount = some a) (huser : a.user = user)
    (hfree : w.deposits.Free (begun s w a amount reference))
    (hv : s.provider.validate (request s (begun s w a amount reference)) = .ok ())
    (hnew : w.rail.findReference? reference = none)
    (hlink : w.deposits.byTransfer.get? (Rail.Sandbox.idOf (w.ids (w.drawn + 1))) = none) :
    let d := initiated s w a amount reference
    let o := s.provider.order (request s (begun s w a amount reference))
    w.run (initiate s user railAccount amount reference).run =
      (.ok (.ok d), { (w.asked.ordered o).ticked with deposits := w.deposits.put d }) := by
  have hasked : w.asked.Plain := hw.congr rfl rfl rfl rfl rfl
  have hholding : World.Holding
      { w.asked with deposits := w.deposits.put (begun s w a amount reference) } w.deposits
      (begun s w a amount reference) := ⟨hasked.congr rfl rfl rfl rfl rfl, rfl, hfree⟩
  have hlinks : w.deposits.LinksNew (begun s w a amount reference)
      (.railInitiated (Rail.Sandbox.idOf (w.ids (w.drawn + 1)))) := by
    rintro t ⟨⟩
    exact ⟨rfl, hlink⟩
  rw [run_initiate hw hblank ha huser]
  refine (World.run_seq (run_create hasked hfree)).trans ?_
  exact run_startRail_accepted hholding rfl hv hnew hlinks

theorem run_initiate_refused (hw : w.Plain) (hblank : Text.isBlankText reference = false)
    (ha : w.accountByRail? railAccount = some a) (huser : a.user = user)
    (hfree : w.deposits.Free (begun s w a amount reference)) {f : Failure}
    (hv : s.provider.validate (request s (begun s w a amount reference)) = .error f) :
    let d := (begun s w a amount reference).after (.failed f.message) (w.clock (w.readings + 1))
    w.run (initiate s user railAccount amount reference).run =
      (.ok (.error f), { w.asked.ticked with deposits := w.deposits.put d }) := by
  have hasked : w.asked.Plain := hw.congr rfl rfl rfl rfl rfl
  have hholding : World.Holding
      { w.asked with deposits := w.deposits.put (begun s w a amount reference) } w.deposits
      (begun s w a amount reference) := ⟨hasked.congr rfl rfl rfl rfl rfl, rfl, hfree⟩
  rw [run_initiate hw hblank ha huser]
  refine (World.run_seq (run_create hasked hfree)).trans ?_
  exact run_startRail_refused hholding rfl hv

/-! ## Into the brokerage -/

/-- The deposit once it has been paid in and counted. -/
def settledBy (w : World) (d : Deposit) : Deposit :=
  (d.after (.brokerFunded (Brokerage.Sandbox.referenceOf (w.ids w.drawn))) w.now).after
    .usageRecorded (w.clock (w.readings + 2))

/-- The world once a deposit has been paid into an account and counted. -/
def paidAndCounted (w : World) (deposits : Store.Deposits) (d : Deposit) (account : String) :
    World :=
  { w.paidIn d.id.toText account d.settledAmount with
    readings := w.readings + 3
    deposits := deposits.put (settledBy w d)
    usages := (w.usages.apply d.user d.id d.amount.value (w.clock (w.readings + 1))).2 }

theorem run_recordUsage (hw : w.Holding deposits d) (hst : d.status = .brokerFunded) {b : Bool}
    (happly : (w.usages.apply d.user d.id d.amount.value w.now).1 = .ok (.ok b)) :
    let d' := d.after .usageRecorded (w.clock (w.readings + 1))
    w.run (recordUsage d).run = (.ok (.ok d'),
      { w with
        readings := w.readings + 2
        deposits := deposits.put d'
        usages := (w.usages.apply d.user d.id d.amount.value w.now).2 }) := by
  intro d'
  let v : World :=
    { w.ticked with usages := (w.usages.apply d.user d.id d.amount.value w.now).2 }
  have hcount : w.run (Action.ask (Program.request (.applyUsage d.user d.id d.amount.value))).run =
      (.ok (.ok b), v) := by
    refine World.run_ask w ?_
    have hguard : w.perform (.applyUsage d.user d.id d.amount.value) =
        w.changeUsage fun s now => s.apply d.user d.id d.amount.value now :=
      World.guarded_of_faultless hw.plain.calm.faultless .usageApply
        (·.changeUsage fun s now => s.apply d.user d.id d.amount.value now)
    rw [hguard]
    exact congrArg (·, v) happly
  have hholding : v.ticked.Holding deposits d :=
    ⟨hw.plain.congr rfl rfl rfl rfl rfl, hw.deposits_eq, hw.free⟩
  have hupdate := run_update (e := .usageRecorded) hholding nofun v.now
  rw [hst] at hupdate
  unfold recordUsage
  rw [World.run_seq hcount, World.run_seq (run_mark_now (e := .usageRecorded) hst)]
  exact World.run_seq hupdate

theorem run_payIn (hw : w.Plain) {key account : String} {amount : Decimal}
    (ha : ¬ amount ≤ .zero) (hnew : w.brokerage.byKey.get? key = none) :
    w.run (Action.retrying (policy s) (payIn key account amount)).run =
      (.ok (.ok (Brokerage.Sandbox.referenceOf (w.ids w.drawn))), w.paidIn key account amount) := by
  refine hw.retrying_ok ?_
  unfold payIn
  rw [World.run_seq (World.run_lift (hw.fund ha hnew))]
  rfl

theorem run_fundClaimed (hw : w.Holding deposits d) (hst : d.status = .railCompleted)
    (ha : w.accounts.get? d.account = some a) (hpos : ¬ d.settledAmount ≤ .zero)
    (hnew : w.brokerage.byKey.get? d.id.toText = none) {b : Bool}
    (happly : (w.usages.apply d.user d.id d.amount.value (w.clock (w.readings + 1))).1 =
      .ok (.ok b)) :
    w.run (fundClaimed s d.id).run =
      (.ok (.ok (settledBy w d)), paidAndCounted w deposits d a.brokerageAccount) := by
  have hfaultless := hw.plain.calm.faultless
  have hdeposit : w.run (depositById d.id).run = (.ok (.ok (some d)), w) := by
    rw [← hw.get?]
    exact World.run_ask w (World.look_of_faultless hfaultless _ _)
  have haccount : w.run (Action.ask (Program.request (.accountById d.account))).run =
      (.ok (.ok (some a)), w) := by
    rw [← ha]
    exact World.run_ask w (World.look_of_faultless hfaultless _ _)
  let paid := w.paidIn d.id.toText a.brokerageAccount d.settledAmount
  let funded := d.after (.brokerFunded (Brokerage.Sandbox.referenceOf (w.ids w.drawn))) w.now
  have hholding : paid.ticked.Holding deposits d :=
    ⟨hw.plain.congr rfl rfl rfl rfl rfl, hw.deposits_eq, hw.free⟩
  have hupdate := run_update
    (e := .brokerFunded (Brokerage.Sandbox.referenceOf (w.ids w.drawn))) hholding nofun w.now
  rw [hst] at hupdate
  have hrecord := run_recordUsage (hholding.after
    (e := .brokerFunded (Brokerage.Sandbox.referenceOf (w.ids w.drawn))) nofun w.now) rfl happly
  unfold fundClaimed
  rw [World.run_seq hdeposit, World.run_seq (b := d) rfl, if_neg (not_not_intro hst)]
  dsimp only
  rw [World.run_seq haccount, World.run_seq (b := a) rfl,
    World.run_seq (run_payIn hw.plain hpos hnew)]
  refine (World.run_seq (run_mark_now (w := paid)
    (e := .brokerFunded (Brokerage.Sandbox.referenceOf (w.ids w.drawn))) hst)).trans ?_
  refine (World.run_seq hupdate).trans ?_
  exact World.run_seq (World.run_result hrecord)

/-- A deposit that has come over the rail is paid in and counted. -/
theorem run_fund (hw : w.Holding deposits d) (hst : d.status = .railCompleted)
    (hclaims : w.claims = []) (ha : w.accounts.get? d.account = some a)
    (hpos : ¬ d.settledAmount ≤ .zero) (hnew : w.brokerage.byKey.get? d.id.toText = none) {b : Bool}
    (happly : (w.usages.apply d.user d.id d.amount.value (w.clock (w.readings + 1))).1 =
      .ok (.ok b)) :
    w.run (fund s d).run =
      (.ok (.ok (settledBy w d)), paidAndCounted w deposits d a.brokerageAccount) := by
  let v : World := { w with claims := [d.id] }
  have hclaim : w.run (Program.request (.claim d.id)) = (.ok true, v) :=
    World.run_ask w (by simp [World.perform, hclaims, v])
  have hv : v.Holding deposits d := ⟨hw.plain.congr rfl rfl rfl rfl rfl, hw.deposits_eq, hw.free⟩
  have hpaid := run_fundClaimed (s := s) hv hst ha hpos hnew happly
  have hrelease : (paidAndCounted v deposits d a.brokerageAccount).run
      (Program.request (.release d.id)) =
        (.ok (), paidAndCounted w deposits d a.brokerageAccount) := by
    refine World.run_ask _ ?_
    simp [World.perform, paidAndCounted, World.paidIn, World.send, settledBy, World.now, v, hclaims]
  unfold fund
  rw [if_neg (not_not_intro hst)]
  dsimp only
  rw [World.run_seq (World.run_lift hclaim)]
  refine (World.run_seq (World.run_result hpaid)).trans ?_
  exact World.run_seq (World.run_lift hrelease)

/-! ## News from the rail -/

variable {transfer : String} {ts : List Transfer}

theorem run_depositByTransfer (hw : w.Plain) (h : w.deposits.getByTransfer? transfer = some d) :
    w.run (Action.ask (Program.request (.depositByTransfer transfer))).run =
      (.ok (.ok (some d)), w) := by
  rw [← h]
  exact World.run_ask w (World.look_of_faultless hw.calm.faultless _ _)

theorem run_listTransfers (hw : w.Plain) (limit offset : Nat) :
    w.run (Provider.listTransfers limit offset).run =
      (.ok (.ok (w.rail.page limit offset)), w.listed limit offset) := by
  unfold Provider.listTransfers
  rw [World.run_seq (World.run_lift (hw.list limit offset))]
  rfl

/-- The latest transfer is the first that a search comes to. -/
theorem run_status_latest (hw : w.Plain) (hpage : s.provider.listPageSize ≠ 0)
    (ht : w.rail.transfers = ts ++ [t]) :
    w.run (Action.retrying (policy s) (Provider.status s.provider t.id)).run =
      (.ok (.ok (t.response (t.direction .stablecoinToFiat))),
        w.listed s.provider.listPageSize 0) := by
  obtain ⟨size, hsize⟩ := Nat.exists_eq_succ_of_ne_zero hpage
  obtain ⟨pages, hpages⟩ : ∃ pages, twoTo 64 = pages + 1 := ⟨twoTo 64 - 1, by decide⟩
  have hfind : (w.rail.page s.provider.listPageSize 0).find? (·.id = t.id) = some t := by
    simp [Rail.Sandbox.page, ht, hsize]
  refine hw.retrying_ok ?_
  unfold Provider.status
  rw [hpages, Provider.searchFrom, World.run_seq (run_listTransfers hw _ _), hfind]
  rfl

/-- The deposit whose transfer has been completed, before it is paid in. -/
def arrived (w : World) (d : Deposit) (t : Transfer) : Deposit :=
  d.after (.railCompleted t.destination.amount) w.now

/-- The world in which that deposit is stored. -/
def inArrival (s : Settings) (w : World) (deposits : Store.Deposits) (d : Deposit) (t : Transfer) :
    World :=
  { (w.listed s.provider.listPageSize 0).ticked with deposits := deposits.put (arrived w d t) }

/-- The news of a completed transfer takes its deposit to the end of its way. -/
theorem run_callback_completed (hw : w.Holding deposits d) (hst : d.status = .railInitiated)
    (htransfer : d.transfer = some t.id) (hpage : s.provider.listPageSize ≠ 0)
    (ht : w.rail.transfers = ts ++ [t]) (hstate : t.state = .completed) (hclaims : w.claims = [])
    (ha : w.accounts.get? d.account = some a) (hpos : ¬ (arrived w d t).settledAmount ≤ .zero)
    (hnew : w.brokerage.byKey.get? d.id.toText = none) {b : Bool}
    (happly : (w.usages.apply d.user d.id d.amount.value (w.clock (w.readings + 2))).1 =
      .ok (.ok b)) :
    w.run (callback s t.id).run = (.ok (.ok (.advanced .railInitiated .brokerFunded)),
      paidAndCounted (inArrival s w deposits d t) deposits (arrived w d t) a.brokerageAccount) := by
  have hfound : w.deposits.getByTransfer? t.id = some d := by
    rw [hw.deposits_eq]
    exact Store.Deposits.getByTransfer?_put htransfer
  have hstatus : (t.response (t.direction .stablecoinToFiat)).status = .completed := by
    simp [Transfer.response, hstate, Rail.State.conversionStatus]
  have hholding : (w.listed s.provider.listPageSize 0).ticked.Holding deposits d :=
    ⟨hw.plain.congr rfl rfl rfl rfl rfl, hw.deposits_eq, hw.free⟩
  have hpersist := run_persist (e := .railCompleted t.destination.amount) hholding nofun w.now
  have hfund := run_fund (s := s) (hholding.after (e := .railCompleted t.destination.amount) nofun w.now)
    rfl hclaims ha hpos hnew happly
  unfold callback
  rw [World.run_seq (run_depositByTransfer hw.plain hfound)]
  dsimp only
  rw [if_neg (not_not_intro hst), World.run_seq (run_status_latest hw.plain hpage ht), hstatus]
  refine (World.run_seq (run_mark_now (w := w.listed s.provider.listPageSize 0)
    (e := .railCompleted t.destination.amount) hst)).trans ?_
  refine (World.run_seq hpersist).trans ?_
  refine (World.run_seq (World.run_result hfund)).trans ?_
  rw [hst]
  rfl

/-- The news of a failed transfer makes its deposit fail. -/
theorem run_callback_failed (hw : w.Holding deposits d) (hst : d.status = .railInitiated)
    (htransfer : d.transfer = some t.id) (hpage : s.provider.listPageSize ≠ 0)
    (ht : w.rail.transfers = ts ++ [t]) (hstate : t.state = .failed) :
    let d' := d.after (.failed "transfer reported as Failed") w.now
    w.run (callback s t.id).run = (.ok (.ok (.advanced .railInitiated .failed)),
      { (w.listed s.provider.listPageSize 0).ticked with deposits := deposits.put d' }) := by
  have hfound : w.deposits.getByTransfer? t.id = some d := by
    rw [hw.deposits_eq]
    exact Store.Deposits.getByTransfer?_put htransfer
  have hstatus : (t.response (t.direction .stablecoinToFiat)).status = .failed := by
    simp [Transfer.response, hstate, Rail.State.conversionStatus]
  have hreason : (t.response (t.direction .stablecoinToFiat)).failureReason =
      some "transfer reported as Failed" := by
    simp [Transfer.response, hstate, Rail.State.conversionStatus, Rail.State.label]
  have hholding : (w.listed s.provider.listPageSize 0).ticked.Holding deposits d :=
    ⟨hw.plain.congr rfl rfl rfl rfl rfl, hw.deposits_eq, hw.free⟩
  have hpersist := run_persist (e := .failed "transfer reported as Failed") hholding nofun w.now
  unfold callback
  rw [World.run_seq (run_depositByTransfer hw.plain hfound)]
  dsimp only
  rw [if_neg (not_not_intro hst), World.run_seq (run_status_latest hw.plain hpage ht), hstatus,
    hreason]
  refine (World.run_seq (run_mark_now (w := w.listed s.provider.listPageSize 0)
    (e := .failed "transfer reported as Failed") (.inr (.inl hst)))).trans ?_
  refine (World.run_seq hpersist).trans ?_
  rw [hst]
  rfl

end Crossing

end Causeway
