import Causeway.Proofs.Replay.Placing
import Causeway.Proofs.Webhook.Delivery
import Causeway.Replay.Report

/-!
# What a row comes to

`Carried` tells all the ways in which a row can end that does not overflow: it is over a limit, it
names no reference, another user's account or a reference that is taken, or it places a deposit,
which then is where the provider's checks and the row's outcome have brought it (`Tells`). `Says` puts
the same in the words of a report.
-/

namespace Causeway.Replay

open Crossing (begun initiated)
open Quota (Admitted Tier)
open Rail (Transfer)

variable {s : Settings} {w w' v : World} {row : Instruction} {a : VirtualAccount} {d : Deposit}
  {α β : Type}

/-! ## Runs of parts of a replay -/

theorem run_seq {p : Play β} {f : β → Play α} {b : β}
    (h : p.run.run.run w = (.ok (.ok b), w')) :
    (p >>= f).run.run.run w = (f b).run.run.run w' := by
  simp only [bind, ExceptT.bind, ExceptT.run, ExceptT.mk, StateT.bind, StateT.run] at h ⊢
  rw [h]
  rfl

theorem run_seq_of_error {p : Play β} {f : β → Play α} {e : Failure}
    (h : p.run.run.run w = (.ok (.error e), w')) :
    (p >>= f).run.run.run w = (.ok (.error e), w') := by
  simp only [bind, ExceptT.bind, ExceptT.run, ExceptT.mk, StateT.bind, StateT.run] at h ⊢
  rw [h]
  rfl

theorem run_seq_of_overflow {p : Play β} {f : β → Play α} {o : Overflow}
    (h : p.run.run.run w = (.error o, w')) :
    (p >>= f).run.run.run w = (.error o, w') := by
  simp only [bind, ExceptT.bind, ExceptT.run, ExceptT.mk, StateT.bind, StateT.run] at h ⊢
  rw [h]
  rfl

theorem run_play {t : Action α} {x : Except Overflow (Except Failure α)}
    (h : w.run t.run = (x, w')) : (play t).run.run.run w = (x, w') := h

/-- A webhook that the replay signs for itself leads to the callback for its transfer. -/
theorem run_tell {t : Transfer} (type : String)
    (htype : "transfer.".toList.isPrefixOf type.toList) {o : Crossing.CallbackOutcome}
    (h : w.ticked.run (Crossing.callback s t.id).run = (.ok (.ok o), w')) :
    (do
      let now ← modifyGet World.readClock
      let _ ← play (Webhook.deliver s (webhookBody type t now)
        (Webhook.sign s.webhookSecret (webhookBody type t now))) :
        Play Unit).run.run.run w = (.ok (.ok ()), w') := by
  have hdeliver := Webhook.deliver_transfer s htype (some w.now.toText)
    { id := t.id
      status := some t.state.name
      sourceAmount := t.source.amount
      destinationAmount := t.destination.amount
      rate := t.rate } (rfl : webhookBody type t w.now = _)
  have hnow : (modifyGet World.readClock : Play Instant).run.run.run w =
      (.ok (.ok w.now), w.ticked) := rfl
  rw [run_seq hnow]
  dsimp only at hdeliver ⊢
  generalize webhookBody type t w.now = body at hdeliver ⊢
  have hrun : w.ticked.run (Webhook.deliver s body (Webhook.sign s.webhookSecret body)).run =
      (.ok (.ok (.processed o)), w') := by
    rw [hdeliver]
    exact World.run_seq h
  rw [run_seq (run_play hrun)]
  rfl

/-! ## The user and the account -/

/-- The world once a row's user and account are known. -/
def registered (row : Instruction) (w : World) : World :=
  let w := w.addUser ⟨row.user, row.status⟩
  if (w.accountByRail? row.railAccount).isNone then
    { w with readings := w.readings + 1, drawn := w.drawn + 1 }.addAccount
      ⟨w.ids w.drawn, row.user, row.railAccount, row.brokerageAccount, w.clock w.readings⟩
  else w

theorem run_register (row : Instruction) (w : World) :
    (register row).run.run.run w = (.ok (.ok ()), registered row w) := by
  let v := w.addUser ⟨row.user, row.status⟩
  have hadd : (modify (·.addUser ⟨row.user, row.status⟩) : Play Unit).run.run.run w =
      (.ok (.ok ()), v) := rfl
  have hget : (get : Play World).run.run.run v = (.ok (.ok v), v) := rfl
  unfold register registered
  dsimp only
  refine (run_seq hadd).trans ((run_seq hget).trans ?_)
  by_cases h : (v.accountByRail? row.railAccount).isNone
  · rw [if_pos h, if_pos h]
    rfl
  · rw [if_neg h, if_neg h]
    rfl

theorem registered_cases (row : Instruction) (w : World) :
    (∃ a, w.accountByRail? row.railAccount = some a) ∧
        registered row w = w.addUser ⟨row.user, row.status⟩ ∨
      w.accountByRail? row.railAccount = none ∧
        registered row w = ({ w with readings := w.readings + 1, drawn := w.drawn + 1 }.addUser
          ⟨row.user, row.status⟩).addAccount
          ⟨w.ids w.drawn, row.user, row.railAccount, row.brokerageAccount, w.clock w.readings⟩ := by
  have hsame : (w.addUser ⟨row.user, row.status⟩).accountByRail? row.railAccount =
      w.accountByRail? row.railAccount := rfl
  unfold registered
  dsimp only
  rw [hsame]
  cases h : w.accountByRail? row.railAccount with
  | some a => exact .inl ⟨⟨a, rfl⟩, rfl⟩
  | none => exact .inr ⟨rfl, rfl⟩

theorem users_registered (row : Instruction) (w : World) :
    (registered row w).users.get? row.user = some ⟨row.user, row.status⟩ := by
  rcases registered_cases row w with ⟨-, hw⟩ | ⟨-, hw⟩
  · rw [hw]
    exact Table.get?_insert_self ..
  · rw [hw]
    exact Table.get?_insert_self ..

theorem kept_registered (row : Instruction) (w : World) : Kept w (registered row w) := by
  rcases registered_cases row w with ⟨-, hw⟩ | ⟨-, hw⟩
  · rw [hw]
    exact ⟨fun h => h.congr rfl rfl rfl rfl rfl, rfl, rfl, rfl, rfl, rfl, rfl, Nat.le_refl _⟩
  · rw [hw]
    exact ⟨fun h => h.congr rfl rfl rfl rfl rfl, rfl, rfl, rfl, rfl, rfl, rfl, Nat.le_succ _⟩

theorem clock_registered (row : Instruction) (w : World) :
    (registered row w).clock = w.clock := by
  rcases registered_cases row w with ⟨-, hw⟩ | ⟨-, hw⟩ <;> rw [hw] <;> rfl

theorem readings_registered (row : Instruction) (w : World) :
    w.readings ≤ (registered row w).readings := by
  rcases registered_cases row w with ⟨-, hw⟩ | ⟨-, hw⟩
  · rw [hw]
    exact Nat.le_refl _
  · rw [hw]
    exact Nat.le_succ _

theorem drawn_registered (row : Instruction) (w : World) :
    (registered row w).drawn ≤ w.drawn + 1 := by
  rcases registered_cases row w with ⟨-, hw⟩ | ⟨-, hw⟩
  · rw [hw]
    exact Nat.le_succ _
  · rw [hw]
    exact Nat.le_refl _

theorem Steady.registered (h : Steady s w) : Steady s (registered row w) := by
  refine h.kept (kept_registered row w) ?_ ?_
  · rcases registered_cases row w with ⟨-, hw⟩ | ⟨-, hw⟩
    · rw [hw]
      exact h.accounts
    · intro id a hid
      rw [hw] at hid ⊢
      have hid : (w.accounts.insert (w.ids w.drawn) _).get? id = some a := hid
      rw [Table.get?_insert] at hid
      split at hid
      · rename_i hnew
        cases hid
        exact ⟨hnew, w.drawn, Nat.lt_succ_self _, hnew.symm⟩
      · obtain ⟨haid, hdrawn⟩ := h.accounts id a hid
        exact ⟨haid, hdrawn.mono rfl (Nat.le_succ _)⟩
  · rcases registered_cases row w with ⟨-, hw⟩ | ⟨-, hw⟩
    · rw [hw]
      exact h.named
    · rw [hw]
      exact Table.nodup_keys_insert h.named _ _

/-- The owner of an account is the user of the first row that names it. -/
theorem owner_registered (row : Instruction) (h : Steady s w) (hfresh : w.FreshFor 1)
    (railAccount : String) :
    ((registered row w).accountByRail? railAccount).map (·.user) =
      ((w.accountByRail? railAccount).map (·.user)).or
        (if row.railAccount = railAccount then some row.user else none) := by
  rcases registered_cases row w with ⟨⟨a, ha⟩, hw⟩ | ⟨hnone, hw⟩
  · rw [hw]
    have hsame : (w.addUser ⟨row.user, row.status⟩).accountByRail? railAccount =
        w.accountByRail? railAccount := rfl
    rw [hsame]
    split
    · rename_i hname
      rw [← hname, ha]
      rfl
    · simp
  · have hnew : w.accounts.get? (w.ids w.drawn) = none :=
      h.account_new (hfresh.not_drawn (n := 0) (by decide))
    have hvalues : (registered row w).accounts.values = w.accounts.values ++
        [⟨w.ids w.drawn, row.user, row.railAccount, row.brokerageAccount, w.clock w.readings⟩] := by
      rw [hw]
      exact Table.values_insert_of_new hnew _
    unfold World.accountByRail? at hnone ⊢
    rw [hvalues, List.find?_append]
    by_cases hname : row.railAccount = railAccount
    · subst hname
      simp [hnone]
    · simp [hname]

/-! ## What is told of a row's deposit -/

/-- The provider takes no conversion of the row's amount in the direction and the currencies of the
settings. -/
def Refuses (s : Settings) (row : Instruction) : Prop :=
  ¬ s.provider.supports s.crossing.direction ∨ row.amount.value < s.provider.minAmount ∨
    (∃ m, s.provider.maxAmount = some m ∧ m < row.amount.value) ∨
    s.crossing.currency = "" ∨ s.crossing.destinationCurrency = "" ∨
    Text.equalIgnoringAsciiCase s.crossing.currency s.crossing.destinationCurrency

theorem refuses_iff (hblank : Text.isBlankText row.reference = false) :
    Refuses s row ↔ s.provider.validate (asks s row) ≠ .ok () := by
  unfold Refuses
  rw [Ne, ProviderSettings.validate_eq_ok_iff]
  simp only [asks, hblank, not_and_or, not_forall, not_not, ne_eq, Bool.not_eq_false]
  constructor
  · rintro (h | h | ⟨m, hm, h⟩ | h | h | h) <;> simp_all
  · rintro (h | h | h | h | h | h | ⟨m, hm, h⟩) <;> simp_all

/-- The deposit is the row's, and is where the row's outcome has brought it, unless the provider has
refused it. -/
structure Tells (s : Settings) (row : Instruction) (d : Deposit) : Prop where
  reference : d.reference = row.reference
  user : d.user = row.user
  amount : d.amount = row.amount
  refused : Refuses s row → d.status = .failed ∧ d.destinationAmount = none ∧ d.transfer = none
  pending : ¬ Refuses s row → row.settlement = .pending →
    d.status = .railInitiated ∧ d.destinationAmount = none ∧ ∃ id ≠ "", d.transfer = some id
  failed : ¬ Refuses s row → row.settlement = .failed →
    d.status = .failed ∧ d.destinationAmount = none ∧ ∃ id ≠ "", d.transfer = some id
  completed : ¬ Refuses s row → row.settlement = .completed →
    d.status = .brokerFunded ∧ (∃ id ≠ "", d.transfer = some id) ∧
      ∃ fee received, row.amount.value.mul s.provider.feeRate = .ok fee ∧
        row.amount.value.sub fee = .ok received ∧ d.destinationAmount = some received

/-- The cells of a line on the row's deposit: its reference, its user, its status, its amount, what has
been received for it, and the provider's id. -/
inductive Says (s : Settings) (row : Instruction) : List String → Prop where
  | refused (h : Refuses s row) :
      Says s row [row.reference, row.user.toText, "failed", row.amount.value.toText, "", ""]
  | pending (h : ¬ Refuses s row) (ho : row.settlement = .pending) (id : String) (hid : id ≠ "") :
      Says s row
        [row.reference, row.user.toText, "rail_initiated", row.amount.value.toText, "", id]
  | failed (h : ¬ Refuses s row) (ho : row.settlement = .failed) (id : String) (hid : id ≠ "") :
      Says s row [row.reference, row.user.toText, "failed", row.amount.value.toText, "", id]
  | completed (h : ¬ Refuses s row) (ho : row.settlement = .completed) (fee received : Decimal)
      (hfee : row.amount.value.mul s.provider.feeRate = .ok fee)
      (hreceived : row.amount.value.sub fee = .ok received) (id : String) (hid : id ≠ "") :
      Says s row
        [row.reference, row.user.toText, "broker_funded", row.amount.value.toText,
          received.toText, id]

theorem Says.head? {line : List String} (h : Says s row line) :
    line.head? = some row.reference := by
  cases h <;> rfl

theorem Tells.says_row (h : Tells s row d) : Says s row (Report.row d) := by
  unfold Report.row
  rw [h.reference, h.user, h.amount]
  by_cases hrefuses : Refuses s row
  · obtain ⟨hst, hdest, hid⟩ := h.refused hrefuses
    rw [hst, hdest, hid]
    exact .refused hrefuses
  · cases ho : row.settlement with
    | pending =>
        obtain ⟨hst, hdest, id, hne, hid⟩ := h.pending hrefuses ho
        rw [hst, hdest, hid]
        exact .pending hrefuses ho id hne
    | failed =>
        obtain ⟨hst, hdest, id, hne, hid⟩ := h.failed hrefuses ho
        rw [hst, hdest, hid]
        exact .failed hrefuses ho id hne
    | completed =>
        obtain ⟨hst, ⟨id, hne, hid⟩, fee, received, hfee, hreceived, hdest⟩ :=
          h.completed hrefuses ho
        rw [hst, hdest, hid]
        exact .completed hrefuses ho fee received hfee hreceived id hne

/-- The counters count the deposit if it has been funded, and not before. -/
inductive Counted (w w' : World) (d : Deposit) : Prop where
  | unfunded (hst : d.status ≠ .brokerFunded) (husages : w'.usages = w.usages)
  | funded (hst : d.status = .brokerFunded) (paid counted : Nat) (hpaid : w.readings ≤ paid)
      (hcounted : paid ≤ counted) (hend : counted < w'.readings)
      (hat : d.brokerFundedAt = some (w.clock paid))
      (husages : w'.usages =
        (w.usages.apply d.user d.id d.amount.value (w.clock counted)).2)

/-! ## Rows -/

/-- The world once the gate has looked at the counters of a row's user. -/
def checked (row : Instruction) (w : World) : World := (registered row w).checked row.user

/-- The row passes the limit check. -/
def Passes (row : Instruction) (w : World) : Prop :=
  ∃ check w', (do
    register row
    play (Quota.validate .deposit row.user row.amount.value) :
      Play Quota.Check).run.run.run w = (.ok (.ok check), w')

/-- What is between a row that has passed the limit check and its deposit. -/
inductive Obstacle (w : World) (row : Instruction) : Failure → Prop where
  | unnamed (h : Text.isBlankText row.reference) : Obstacle w row (.invalid .noReference)
  | foreign (a : VirtualAccount) (ha : w.accountByRail? row.railAccount = some a)
      (huser : a.user ≠ row.user) :
      Obstacle w row (.invalid (.foreignAccount row.railAccount row.user))
  | taken (h : w.deposits.byReference.contains row.reference) :
      Obstacle w row (.duplicateReference row.reference)

/-- The ways in which a row can end. -/
inductive Carried (s : Settings) (row : Instruction) (w : World) :
    Except Failure Unit → World → Prop where
  | overLimit (denial : Quota.Denial) (w' : World) (hpass : ¬ Passes row w)
      (hw' : w' = registered row w ∨ w' = checked row w) :
      Carried s row w (.error (.overLimit denial)) w'
  | stopped (e : Failure) (w' : World) (hpass : Passes row w) (h : Obstacle (checked row w) row e)
      (hw' : w' = checked row w ∨ w' = (checked row w).asked) : Carried s row w (.error e) w'
  | placed (r : Except Failure Unit) (w' : World) (d : Deposit) (hpass : Passes row w)
      (hadmitted : Admitted (Tier.ofStatus row.status)
        ((registered row w).usages.reset row.user (registered row w).now).1 .deposit
        row.amount.value)
      (a : VirtualAccount) (hready : Ready s (checked row w) row a)
      (hw' : Placed (checked row w) w' d) (htells : Tells s row d)
      (hcounted : Counted (checked row w) w' d)
      (hbegun : d.createdAt = (checked row w).now)
      (hclock : w'.clock = w.clock) (hreadings : (checked row w).readings ≤ w'.readings)
      (hdrawn : w'.drawn ≤ (checked row w).drawn + 3) : Carried s row w r w'

theorem run_settle_failed (h : Ready s w row a) :
    (settle (Ready.opened s w row).id .failed).run.run.run (Ready.onRail s w row a) =
      (.ok (.ok (some ("transfer.failed", Ready.failing s w row))),
        Ready.settledOn s w row a (Ready.failing s w row)) := by
  unfold settle
  exact run_seq (h.setTransferState_onRail .failed)

theorem run_settle_completed (h : Ready s w row a) :
    (settle (Ready.opened s w row).id .completed).run.run.run (Ready.onRail s w row a) =
      match Rail.Sandbox.settled s.provider.feeRate (Ready.opened s w row) with
      | .ok t => (.ok (.ok (some ("transfer.completed", t))), Ready.settledOn s w row a t)
      | .error o => (.error o, Ready.settledOn s w row a
          (Rail.Sandbox.interrupted s.provider.feeRate (Ready.opened s w row))) := by
  have hcomplete := h.completeTransfer_onRail
  rw [h.steady.feeRate] at hcomplete
  unfold settle
  cases hsettled : Rail.Sandbox.settled s.provider.feeRate (Ready.opened s w row) with
  | ok t =>
      rw [hsettled] at hcomplete
      exact run_seq hcomplete
  | error o =>
      rw [hsettled] at hcomplete
      exact run_seq_of_overflow hcomplete

theorem kept_checked (w : World) (user : Uuid) : Kept w (w.checked user) :=
  ⟨fun h => h.congr rfl rfl rfl rfl rfl, rfl, rfl, rfl, rfl, rfl, rfl, Nat.le_refl _⟩

theorem kept_asked (w : World) : Kept w w.asked :=
  ⟨fun h => h.congr rfl rfl rfl rfl rfl, rfl, rfl, rfl, rfl, rfl, rfl, Nat.le_succ _⟩

theorem Steady.checked (h : Steady s w) (row : Instruction) : Steady s (checked row w) :=
  h.registered.kept_accounts (kept_checked _ _) rfl

theorem exists_account (h : Steady s w) (hfresh : w.FreshFor 1) (row : Instruction) :
    ∃ a, (checked row w).accountByRail? row.railAccount = some a := by
  have howner := owner_registered row h hfresh row.railAccount
  rw [if_pos rfl] at howner
  have hsame : (checked row w).accountByRail? row.railAccount =
      (registered row w).accountByRail? row.railAccount := rfl
  rw [hsame]
  cases ha : (registered row w).accountByRail? row.railAccount with
  | some a => exact ⟨a, rfl⟩
  | none =>
      rw [ha] at howner
      cases hold : (w.accountByRail? row.railAccount).map (·.user) <;> simp [hold] at howner

/-! ## Rows that place a deposit -/

/-- What a row does that places the deposit. -/
structure Places (s : Settings) (row : Instruction) (w w' : World) (d : Deposit) : Prop where
  placed : Placed w w' d
  tells : Tells s row d
  counted : Counted w w' d
  begun : d.createdAt = w.now
  clock : w'.clock = w.clock
  readings : w.readings ≤ w'.readings
  drawn : w'.drawn ≤ w.drawn + 3

namespace Ready

variable (h : Ready s w row a)
include h

theorem places_refused {f : Failure} (hv : s.provider.validate (asks s row) = .error f) :
    ∃ v d, w.run (Crossing.initiate s row.user row.railAccount row.amount row.reference).run =
        (.ok (.error f), v) ∧ Places s row w v d := by
  have hrefuses : Refuses s row := (refuses_iff h.named).mpr (by rw [hv]; nofun)
  obtain ⟨hinitiate, hplaced⟩ := h.run_refused hv
  exact ⟨_, _, hinitiate,
    { placed := hplaced
      tells :=
        { reference := rfl
          user := h.user
          amount := rfl
          refused := fun _ => ⟨rfl, rfl, rfl⟩
          pending := fun htakes => absurd hrefuses htakes
          failed := fun htakes => absurd hrefuses htakes
          completed := fun htakes => absurd hrefuses htakes }
      counted := .unfunded nofun rfl
      begun := rfl
      clock := rfl
      readings := Nat.le_add_right _ 2
      drawn := Nat.add_le_add_left (by decide) _ }⟩

theorem places_pending (htakes : ¬ Refuses s row) (ho : row.settlement = .pending) :
    Places s row w (onRail s w row a) (initiated s w a row.amount row.reference) where
  placed := h.placed_pending
  tells :=
    { reference := rfl
      user := h.user
      amount := rfl
      refused := fun hr => absurd hr htakes
      pending := fun _ _ => ⟨rfl, rfl, _, idOf_ne_empty _, rfl⟩
      failed := fun _ hf => nomatch ho.symm.trans hf
      completed := fun _ hc => nomatch ho.symm.trans hc }
  counted := .unfunded nofun rfl
  begun := rfl
  clock := rfl
  readings := Nat.le_add_right _ 2
  drawn := Nat.le_succ _

theorem places_failed (hs : s.Workable) (htakes : ¬ Refuses s row)
    (ho : row.settlement = .failed) :
    ∃ v d, (informed s w row a (failing s w row)).run
        (Crossing.callback s (failing s w row).id).run =
          (.ok (.ok (.advanced .railInitiated .failed)), v) ∧ Places s row w v d := by
  obtain ⟨v, hcallback, hplaced, husages, hclock, hreadings, hdrawn⟩ := h.run_failed hs
  exact ⟨v, _, hcallback,
    { placed := hplaced
      tells :=
        { reference := rfl
          user := h.user
          amount := rfl
          refused := fun hr => absurd hr htakes
          pending := fun _ hp => nomatch ho.symm.trans hp
          failed := fun _ _ => ⟨rfl, rfl, _, idOf_ne_empty _, rfl⟩
          completed := fun _ hc => nomatch ho.symm.trans hc }
      counted := .unfunded nofun husages
      begun := rfl
      clock := hclock
      readings := hreadings
      drawn := by omega }⟩

theorem places_completed (hs : s.Workable) (htakes : ¬ Refuses s row)
    (ho : row.settlement = .completed) {t : Transfer}
    (ht : Rail.Sandbox.settled s.provider.feeRate (opened s w row) = .ok t) :
    (informed s w row a t).run (Crossing.callback s t.id).run =
        (.ok (.ok (.advanced .railInitiated .brokerFunded)), closed s w row a t) ∧
      Places s row w (closed s w row a t) (ended s w row a t) := by
  obtain ⟨hcallback, hplaced⟩ := h.run_completed hs ht
  obtain ⟨fee, received, hfee, hreceived, -, hdest⟩ := Rail.Sandbox.settled_eq_ok ht
  exact ⟨hcallback,
    { placed := hplaced
      tells :=
        { reference := rfl
          user := h.user
          amount := rfl
          refused := fun hr => absurd hr htakes
          pending := fun _ hp => nomatch ho.symm.trans hp
          failed := fun _ hf => nomatch ho.symm.trans hf
          completed := fun _ _ =>
            ⟨rfl, ⟨_, idOf_ne_empty _, rfl⟩, fee, received, hfee, hreceived, hdest⟩ }
      counted := .funded rfl (w.readings + 4) (w.readings + 5) (Nat.le_add_right _ 4)
        (Nat.le_succ _) (Nat.add_lt_add_left (by decide) _) rfl rfl
      begun := rfl
      clock := rfl
      readings := Nat.le_add_right _ 7
      drawn := Nat.le_refl _ }⟩

end Ready

/-- A row that nothing stands in the way of places its deposit, and ends without a failure unless the
provider refuses it. -/
theorem places_of_ready (hs : s.Workable) (h : Ready s w row a) {r : Except Failure Unit}
    (hrun : (do
      let d ← play (Crossing.initiate s row.user row.railAccount row.amount row.reference)
      match d.transfer with
      | none => pure ()
      | some transfer =>
        match ← settle transfer row.settlement with
        | none => pure ()
        | some (type, t) =>
          let now ← modifyGet World.readClock
          let body := webhookBody type t now
          let _ ← play (Webhook.deliver s body (Webhook.sign s.webhookSecret body)) :
      Play Unit).run.run.run w = (.ok r, w')) : ∃ d, Places s row w w' d := by
  cases hv : s.provider.validate (asks s row) with
  | error f =>
      obtain ⟨v, d, hinitiate, hplaces⟩ := h.places_refused hv
      rw [run_seq_of_error (run_play hinitiate)] at hrun
      cases hrun
      exact ⟨d, hplaces⟩
  | ok u =>
      have htakes : ¬ Refuses s row := fun hr => (refuses_iff h.named).mp hr hv
      rw [run_seq (run_play (h.run_accepted hv))] at hrun
      have htransfer : (initiated s w a row.amount row.reference).transfer =
          some (Ready.opened s w row).id := rfl
      rw [htransfer] at hrun
      dsimp only at hrun
      cases ho : row.settlement with
      | pending =>
          have hsettle : (settle (Ready.opened s w row).id .pending).run.run.run
              (Ready.onRail s w row a) = (.ok (.ok none), Ready.onRail s w row a) := rfl
          rw [ho, run_seq hsettle] at hrun
          cases hrun
          exact ⟨_, h.places_pending htakes ho⟩
      | failed =>
          obtain ⟨v, d, hcallback, hplaces⟩ := h.places_failed hs htakes ho
          rw [ho, run_seq (run_settle_failed h)] at hrun
          dsimp only at hrun
          rw [run_tell "transfer.failed" (by decide) hcallback] at hrun
          cases hrun
          exact ⟨d, hplaces⟩
      | completed =>
          have hsettle := run_settle_completed h
          cases hsettled : Rail.Sandbox.settled s.provider.feeRate (Ready.opened s w row) with
          | error o =>
              rw [hsettled] at hsettle
              rw [ho, run_seq_of_overflow hsettle] at hrun
              cases hrun
          | ok t =>
              rw [hsettled] at hsettle
              obtain ⟨hcallback, hplaces⟩ := h.places_completed hs htakes ho hsettled
              rw [ho, run_seq hsettle] at hrun
              dsimp only at hrun
              rw [run_tell "transfer.completed" (by decide) hcallback] at hrun
              cases hrun
              exact ⟨_, hplaces⟩

/-- Every row that does not overflow ends in one of these ways. -/
theorem carried (hs : s.Workable) (hw : Steady s w) (hfresh : w.FreshFor 3)
    {r : Except Failure Unit} (h : (carryOut s row).run.run.run w = (.ok r, w')) :
    Carried s row w r w' := by
  have hregister := run_register row w
  have hsteady := hw.checked row
  unfold carryOut at h
  rw [run_seq hregister] at h
  rcases hcheck : (registered row w).run (Quota.validate .deposit row.user row.amount.value).run
    with ⟨o | c, v⟩
  · rw [run_seq_of_overflow (run_play hcheck)] at h
    cases h
  rcases Quota.run_validate_cases hw.registered.plain (users_registered row w) hcheck with
    ⟨⟨denial, rfl⟩, hv⟩ | ⟨⟨check, rfl⟩, rfl, hadmitted⟩
  · rw [run_seq_of_error (run_play hcheck)] at h
    cases h
    refine .overLimit denial _ ?_ hv
    rintro ⟨check, w'', hpass⟩
    rw [run_seq hregister] at hpass
    cases hpass.symm.trans (run_play hcheck)
  have hpass : Passes row w := ⟨check, _, (run_seq hregister).trans (run_play hcheck)⟩
  rw [run_seq (run_play hcheck)] at h
  have hinitiate : ∀ {e v}, (checked row w).run
      (Crossing.initiate s row.user row.railAccount row.amount row.reference).run =
        (.ok (.error e), v) → r = .error e ∧ w' = v := by
    intro e v he
    have hend := h.symm.trans (run_seq_of_error (run_play he))
    cases hend
    exact ⟨rfl, rfl⟩
  by_cases hblank : Text.isBlankText row.reference
  · obtain ⟨rfl, rfl⟩ := hinitiate (Crossing.run_initiate_blank hblank)
    exact .stopped _ _ hpass (.unnamed hblank) (.inl rfl)
  replace hblank : Text.isBlankText row.reference = false := by simpa using hblank
  obtain ⟨a, ha⟩ := exists_account hw (hfresh.mono rfl (Nat.add_le_add_left (by decide) _)) row
  by_cases huser : a.user = row.user
  · by_cases htaken : (checked row w).deposits.byReference.contains row.reference
    · obtain ⟨rfl, rfl⟩ := hinitiate
        (Crossing.run_initiate_taken hsteady.plain hblank ha huser htaken)
      exact .stopped _ _ hpass (.taken htaken) (.inr rfl)
    · have hready : Ready s (checked row w) row a :=
        { steady := hsteady
          fresh := hfresh.mono (kept_registered row w).ids
            (Nat.add_le_add_right (drawn_registered row w) 2)
          named := hblank
          account := ha
          user := huser
          unused := htaken
          large := hadmitted.large
          countable := fun id now hid =>
            Store.Usages.apply_of_admitted hadmitted (Decimal.not_le_zero row.amount) hid }
      obtain ⟨d, hplaces⟩ := places_of_ready hs hready h
      exact .placed r w' d hpass hadmitted a hready hplaces.placed hplaces.tells hplaces.counted
        hplaces.begun (hplaces.clock.trans (clock_registered row w)) hplaces.readings hplaces.drawn
  · obtain ⟨rfl, rfl⟩ := hinitiate (Crossing.run_initiate_foreign hsteady.plain hblank ha huser)
    exact .stopped _ _ hpass (.foreign a ha huser) (.inl rfl)

end Causeway.Replay
