import Causeway.Proofs.Crossing.Conduct
import Causeway.Proofs.Crossing.Onward
import Causeway.Proofs.World.Changes

/-!
# Deposits and the transfers ordered for them

An operation makes deposits under drawn identifiers only, orders transfers only under the reference
and for the amount of a stored deposit, and links a deposit only to a transfer that the rail has
made under the deposit's reference. Each of these is known from what came before, and the rail
forgets no transfer.
-/

namespace Causeway.World

variable {w w' w'' : World} {r : Request} {transfer reference : String}

/-- The books are led on, and the rail and the source of identifiers have gone on as well. -/
structure Grows (w w' : World) : Prop where
  later : Later w w'
  origins : w.rail.origins <+: w'.rail.origins
  ids : w'.ids = w.ids
  drawn : w.drawn ≤ w'.drawn

theorem Grows.refl (w : World) : Grows w w :=
  ⟨.refl w, List.prefix_rfl, rfl, Nat.le_refl _⟩

theorem Grows.trans (h : Grows w w') (h' : Grows w' w'') : Grows w w'' where
  later := h.later.trans h'.later
  origins := h.origins.trans h'.origins
  ids := h'.ids.trans h.ids
  drawn := Nat.le_trans h.drawn h'.drawn

/-- The rail has made the transfer under the reference. -/
def Made (w : World) (transfer reference : String) : Prop :=
  ∃ x ∈ w.rail.origins, x.id = transfer ∧ x.reference = reference

theorem Made.grows (h : w.Made transfer reference) (hw : Grows w w') :
    w'.Made transfer reference := by
  obtain ⟨x, hx, hid, href⟩ := h
  exact ⟨x, hw.origins.subset hx, hid, href⟩

def Issued (w : World) (id : Uuid) : Prop := ∃ n < w.drawn, id = w.ids n

theorem Issued.grows {id : Uuid} (h : w.Issued id) (hw : Grows w w') : w'.Issued id := by
  obtain ⟨n, hn, hid⟩ := h
  exact ⟨n, Nat.lt_of_lt_of_le hn hw.drawn, by rw [hw.ids]; exact hid⟩

/-- What an order asks for is what a stored deposit needs. -/
def Needs (w : World) (o : Rail.Order) : Prop :=
  ∃ d, w.deposits.get? d.id = some d ∧ d.reference = o.reference ∧ d.amount.value = o.amount

def Links (w : World) : Request → Prop
  | .createDeposit d => w.Issued d.id
  | .createTransfer o => w.Needs o
  | .updateDeposit d .created => ∀ transfer, d.transfer = some transfer →
      w.Made transfer d.reference
  | _ => True

/-- No request makes the rail forget a transfer. -/
theorem perform_origins (w : World) (r : Request) :
    w.rail.origins <+: (w.perform r).2.rail.origins := by
  unfold Rail.Sandbox.origins
  by_cases hr : ∃ o, r = .createTransfer o
  · obtain ⟨o, rfl⟩ := hr
    obtain ⟨_, -, ⟨ht, -⟩ | ⟨-, -, ht, -⟩⟩ := w.createTransfer_cases o
    · exact ht ▸ List.prefix_rfl
    · rw [ht, List.map_append]
      exact List.prefix_append ..
  · have htransfers := w.perform_transfers fun o ho => hr ⟨o, ho⟩
    exact htransfers ▸ List.prefix_rfl

theorem perform_grows (hs : w.Sound) (h : w.Permits r) : Grows w (w.perform r).2 :=
  have he := perform_effect hs h
  ⟨he.later hs, w.perform_origins r, he.ids.1, he.ids.2⟩

end Causeway.World

namespace Causeway.Crossing

open Deposit (Event Status)
open World (Recalls Grows)

variable {s : Settings} {w w' : World} {d : Deposit}

def linkRules : Rules where
  assumes w r := w.Sound ∧ w.Permits r
  rely := World.Grows
  permits := World.Links
  refl := World.Grows.refl
  trans := World.Grows.trans

theorem linkRules_shared : linkRules.Shared := fun _ _ ha _ => World.perform_grows ha.1 ha.2

theorem Onward.links (w : World) (r : Request) (h : Onward r) : w.Links r := by
  cases r with
  | createDeposit d => exact h.elim
  | createTransfer o => exact h.elim
  | updateDeposit d expected =>
      cases expected with
      | created => exact absurd rfl h
      | _ => trivial
  | _ => trivial

/-! ## The order -/

/-- The request is one for the deposit. -/
def Requests (r : Conversion.Request) (d : Deposit) : Prop :=
  r.key = d.reference ∧ r.amount = d.amount

theorem createTransfer_links {p : ProviderSettings} {r : Conversion.Request} (hd : w.Recalls d)
    (hr : Requests r d) :
    linkRules.Safe (Provider.createTransfer (p.order r))
      (fun t w => w.Made t.id d.reference) w := by
  have hlift : linkRules.Safe (liftM (Program.request (.createTransfer (p.order r))) :
      Attempt (Reply (Except Rail.ApiError Rail.Transfer)))
      (fun reply w => ∀ t, reply.answer = .ok t → w.Made t.id d.reference) w := by
    refine Rules.Yields.lift (Rules.Keeps.request fun w' hw _ => ⟨?_, fun reply hreply t ht => ?_⟩)
    · obtain ⟨cur, hcur, hl⟩ := hd.later hw.later
      refine ⟨cur, by rw [hl.id_eq]; exact hcur, ?_, ?_⟩
      · exact (congrArg Deposit.Origin.reference hl.origin).trans hr.1.symm
      · exact congrArg Amount.value (hl.amount_eq.trans hr.2.symm)
    · obtain ⟨hmem, href⟩ := Rail.Sandbox.mem_origins_of_findReference?
        (World.findReference?_createTransfer hreply ht)
      exact ⟨t.origin, hmem, rfl, href.trans hr.1⟩
  refine Rules.Safe.seq linkRules_shared hlift fun reply w' _ hmade => ?_
  have hreceive := Rules.Safe.receive (R := linkRules) (fun _ _ => trivial) Failure.ofApiError reply
    w'
  refine Rules.Yields.mono (Rules.Yields.since linkRules_shared hreceive) ?_ fun _ _ _ => trivial
  exact fun t w'' ⟨hw, ht⟩ => (hmade t ht).grows hw

theorem convert_links {p : ProviderSettings} {r : Conversion.Request} (hd : w.Recalls d)
    (hr : Requests r d) :
    linkRules.Safe (Provider.convert p r)
      (fun response w => w.Made response.transfer d.reference) w := by
  refine Rules.Safe.seq linkRules_shared (Rules.Safe.attempt _ w) fun _ w' hw _ => ?_
  refine Rules.Safe.seq linkRules_shared (createTransfer_links (hd.later hw.later) hr)
    fun t w'' _ ht => ?_
  exact Rules.Safe.pure ht

theorem order_links (hd : w.Recalls d) :
    linkRules.Safe (Action.retrying (policy s) (Provider.convert s.provider (request s d)))
      (fun response w => w.Made response.transfer d.reference) w :=
  Rules.Safe.retrying linkRules_shared (fun _ => ⟨trivial, fun _ => trivial⟩)
    (J := fun w => w.Recalls d) (fun _ _ hw hd => hd.later hw.later)
    (fun _ hd => convert_links hd ⟨rfl, rfl⟩) hd

theorem mark_links (d : Deposit) (e : Event) (w : World) :
    linkRules.Safe (mark d e) (fun d' _ => ∃ now, d.apply e now = .ok d') w :=
  Rules.Safe.seq linkRules_shared (Rules.Safe.lift .now (fun _ => trivial) w) fun now w _ _ =>
    Rules.Safe.mono (Rules.Safe.ofExcept _ w) fun _ _ hd => ⟨now, hd⟩

/-- A deposit that waits may be linked to a transfer made for it, or to none. -/
theorem update_links (h : ∀ transfer, d.transfer = some transfer → w.Made transfer d.reference) :
    linkRules.Safe (update d .created) (fun _ _ => True) w :=
  Rules.Safe.askFree (Rules.Keeps.request fun _ hw _ =>
    ⟨fun transfer ht => (h transfer ht).grows hw, fun _ _ => trivial⟩)

theorem startRail_links (hd : w.Recalls d) (ht : d.transfer = none) :
    linkRules.Safe (startRail s d) (fun _ _ => True) w := by
  refine Rules.Safe.seq linkRules_shared (Rules.Safe.result (order_links hd)) fun r w _ hr => ?_
  cases r with
  | ok response =>
      refine Rules.Safe.seq linkRules_shared (mark_links d _ w) fun d' w hw ⟨now, ha⟩ => ?_
      obtain ⟨-, rfl⟩ := Deposit.apply_eq_ok_iff.mp ha
      refine Rules.Safe.seq linkRules_shared (update_links ?_)
        fun _ _ _ _ => Rules.Safe.pure trivial
      intro transfer htransfer
      cases htransfer
      exact (hr response rfl).grows hw
  | error e =>
      refine Rules.Safe.seq linkRules_shared (Rules.Safe.lift .isAborted (fun _ => trivial) w)
        fun b w _ _ => ?_
      refine Rules.Safe.unless fun _ => ?_
      refine Rules.Safe.seq linkRules_shared (mark_links d _ w) fun d' w _ ⟨now, ha⟩ => ?_
      obtain ⟨-, rfl⟩ := Deposit.apply_eq_ok_iff.mp ha
      refine Rules.Safe.seq linkRules_shared (Rules.Safe.result (update_links ?_))
        fun _ _ _ _ => Rules.Safe.throw
      intro transfer htransfer
      have htransfer : d.transfer = some transfer := htransfer
      rw [ht] at htransfer
      cases htransfer

/-! ## Taking deposits in -/

theorem freshId_links (w : World) :
    linkRules.Safe (liftM (Program.request .freshId) : Action Uuid)
      (fun id w => w.Issued id) w := by
  refine Rules.Yields.lift (Rules.Keeps.request fun w' _ _ => ⟨trivial, fun id hid => ?_⟩)
  have hid : w'.ids w'.drawn = id := by injection hid
  exact ⟨w'.drawn, Nat.lt_succ_self _, hid.symm⟩

theorem createDeposit_links (hid : w.Issued d.id) :
    linkRules.Safe (Action.ask (Program.request (.createDeposit d)))
      (fun _ w => w.Recalls d) w := by
  refine Rules.Safe.ask (Rules.Keeps.request fun w' hw _ => ⟨hid.grows hw, fun r hr _ ho => ?_⟩)
  subst ho
  rcases World.createDeposit_cases w' d with ⟨_, _, he, _⟩ | ⟨_, hc, he⟩
  · rw [he] at hr; cases hr
  · rw [he]
    exact ⟨d, (Store.Deposits.get?_create hc).trans (if_pos rfl), .refl⟩

theorem initiate_links (user : Uuid) (railAccount : String) (amount : Amount) (reference : String)
    (w : World) :
    linkRules.Safe (initiate s user railAccount amount reference) (fun _ _ => True) w := by
  unfold initiate
  dsimp only
  refine Rules.Safe.unless fun _ => ?_
  refine Rules.Safe.seq linkRules_shared
    (Rules.Safe.askFree (Rules.Keeps.free (.accountByRail railAccount) (fun _ => trivial) w))
    fun found w _ _ => ?_
  refine Rules.Safe.seq linkRules_shared (Rules.Safe.orNotFound _ _ found w) fun account w _ _ => ?_
  refine Rules.Safe.unless fun _ => ?_
  refine Rules.Safe.seq linkRules_shared (Rules.Safe.lift .now (fun _ => trivial) w)
    fun now w _ _ => ?_
  refine Rules.Safe.seq linkRules_shared (freshId_links w) fun id w _ hid => ?_
  refine Rules.Safe.seq linkRules_shared (createDeposit_links hid) fun _ w _ hd => ?_
  exact startRail_links hd rfl

/-! ## All operations -/

/-- A copy of a deposit that has no transfer. -/
def Unlinked (d : Deposit) (w : World) : Prop := w.Recalls d ∧ d.transfer = none

theorem unlinked_stable (d : Deposit) : linkRules.Stable (Unlinked d) :=
  fun _ _ hw ⟨hd, ht⟩ => ⟨hd.later hw.later, ht⟩

theorem depositsIn_created_links (w : World) :
    linkRules.Safe (depositsIn .created) (fun ds w => ∀ d ∈ ds, Unlinked d w) w := by
  refine Rules.Safe.ask (Rules.Keeps.request fun w' _ ha => ⟨trivial, fun r hr ds hds d hd => ?_⟩)
  subst hds
  obtain ⟨rfl, hw⟩ := World.look_ok hr
  rw [show (w'.perform (.depositsIn .created)).2 = w' from hw]
  obtain ⟨hd, hst⟩ := (Store.Deposits.mem_withStatus ha.1.deposits).mp hd
  exact ⟨ha.1.recalls hd, (ha.1.deposits.coherent hd).transfer hst⟩

theorem visitCreated_links (now : Instant) (report : Report) (h : Unlinked d w) :
    linkRules.Keeps (visitCreated s now report d) (fun _ _ => True) w := by
  unfold visitCreated
  split
  · trivial
  · refine Rules.Keeps.seq linkRules_shared (startRail_links h.1 h.2) fun r w _ _ => ?_
    cases r <;> trivial

theorem resume_links (now : Instant) (report : Report) (w : World) :
    linkRules.Safe (depositsIn .created) (fun ds w =>
      linkRules.Safe (liftM (visitAll (visitCreated s now) report ds) : Action (Report × Bool))
        (fun _ _ => True) w) w :=
  Rules.Safe.mono (depositsIn_created_links w) fun ds w hds => Rules.Yields.lift
    (visitAll_keeps linkRules_shared (fun _ => trivial) unlinked_stable
      (fun report _ _ h => visitCreated_links now report h) report ds w hds)

theorem sweep_links (now : Instant) (w : World) :
    linkRules.Safe (sweep s now) (fun _ _ => True) w :=
  sweep_of_onward Onward.links resume_links now w

theorem program_links (op : Operation) (w : World) :
    linkRules.Keeps (op.program s) (fun _ _ => True) w :=
  program_of_onward Onward.links initiate_links resume_links op w

end Causeway.Crossing
