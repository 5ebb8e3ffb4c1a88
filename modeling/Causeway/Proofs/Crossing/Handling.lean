import Causeway.Proofs.Crossing.Calls

/-!
# One deposit in a calm world

While an operation handles a deposit in a calm world, it is stored as the operation knows it and no
other deposit changes (`Handling`). So every change goes through, and each operation takes the
deposit as far as it can.
-/

namespace Causeway.Crossing

open Deposit (Event Status)
open World (SameBut Unmoved Untouched)

variable {s : Settings} {w₀ w w' : World} {cs : List Uuid} {d d' : Deposit} {e : Event}
  {expected : Status} {α : Type} {Q : α → World → Prop} {E : Failure → World → Prop}

/-- The deposit is stored as it is, no other has changed since the beginning, and the claims are
these. -/
structure Handling (w₀ : World) (cs : List Uuid) (d : Deposit) (w : World) : Prop where
  calm : w.Calm 0
  stored : w.deposits.get? d.id = some d
  others : SameBut d.id w₀ w
  accounts : w.accounts = w₀.accounts
  claims : w.claims = cs
  transfers : w₀.rail.transfers <+: w.rail.transfers
  opened : ∀ t ∈ w.rail.transfers, t ∈ w₀.rail.transfers ∨ t.state = .pending

theorem Handling.start (hw : w.Calm 0) (hd : w.deposits.get? d.id = some d) :
    Handling w w.claims d w :=
  ⟨hw, hd, fun _ _ => rfl, rfl, rfl, List.prefix_rfl, fun _ => .inl⟩

theorem Handling.untouched (h : Handling w₀ cs d w) (hw : Untouched w w') (hcalm : w'.Calm 0) :
    Handling w₀ cs d w' where
  calm := hcalm
  stored := by rw [hw.deposits]; exact h.stored
  others := fun id hne => by rw [hw.deposits]; exact h.others id hne
  accounts := hw.accounts.trans h.accounts
  claims := hw.claims.trans h.claims
  transfers := h.transfers.trans hw.transfers
  opened t ht := (hw.opened t ht).elim (h.opened t) .inr

theorem Handling.read (h : Handling w₀ cs d w) :
    Handling w₀ cs d { w with readings := w.readings + 1 } :=
  h.untouched { Untouched.refl w with }
    ⟨h.calm.faultless, h.calm.creates, h.calm.lists, h.calm.fundings, h.calm.clear⟩

theorem Handling.update {deposits : Store.Deposits} (h : Handling w₀ cs d w) (hid : d'.id = d.id)
    (hu : w.deposits.update d' expected = .ok deposits) :
    Handling w₀ cs d' { w with deposits } where
  calm := ⟨h.calm.faultless, h.calm.creates, h.calm.lists, h.calm.fundings, h.calm.clear⟩
  stored := Store.Deposits.get?_update_self hu
  others := by
    intro id hne
    have hne' : d'.id ≠ id := hne.symm
    refine (Store.Deposits.get?_update hu).trans ?_
    rw [if_neg hne']
    exact h.others id (by rw [← hid]; exact hne)
  accounts := h.accounts
  claims := h.claims
  transfers := h.transfers
  opened := h.opened

/-! ## Changes -/

/-- The world is consistent, and 64 bits suffice to count the transfers. -/
structure Countable (w : World) : Prop where
  consistent : Consistent w
  length_le : w.rail.transfers.length ≤ twoTo 64

/-- Whatever a program asks for, as long as it has the world to itself. -/
abbrev unhindered : Rules := Rules.alone Countable fun _ => True

theorem update_handling (h : Handling w₀ cs d w) (ha : d.Allows e) (hst : d.status = expected)
    (hmade : ∀ transfer, e = .railInitiated transfer → w.Made transfer d.reference) (now : Instant)
    {Q : Unit → World → Prop} (hQ : ∀ w', Handling w₀ cs (d.after e now) w' → Q () w') :
    unhindered.Yields (update (d.after e now) expected) Q E w := by
  have hid : (d.after e now).id = d.id := congrArg Deposit.Origin.id (Deposit.origin_after d e now)
  refine update_alone trivial h.calm.faultless (fun hk => hk.consistent.sound.race) (fun hk => ?_)
    fun deposits hu => hQ _ (h.update hid hu)
  rw [← hst]
  exact update_accepted hk.consistent h.stored ha hmade now

/-- An event is stored as soon as it has been applied. -/
theorem advance_handling {f : Deposit → Action α} (h : Handling w₀ cs d w) (ha : d.Allows e)
    (hst : d.status = expected)
    (hmade : ∀ transfer, e = .railInitiated transfer → w.Made transfer d.reference)
    (hf : ∀ now w', Handling w₀ cs (d.after e now) w' →
      unhindered.Yields (f (d.after e now)) Q E w') :
    unhindered.Yields (mark d e >>= fun d' => update d' expected >>= fun _ => f d') Q E w :=
  Rules.Yields.bind (mark_alone trivial ha fun now => Rules.Yields.bind
    (update_handling h.read ha hst hmade now fun w' h => hf now w' h))

theorem persist_handling {f : Bool → Action α} (h : Handling w₀ cs d w) (ha : d.Allows e)
    (hst : d.status = expected) (hrail : ∀ transfer, e ≠ .railInitiated transfer) (now : Instant)
    (hf : ∀ w', Handling w₀ cs (d.after e now) w' → unhindered.Yields (f true) Q E w') :
    unhindered.Yields (persist (d.after e now) expected >>= f) Q E w :=
  Rules.Yields.bind (Rules.Yields.bind (Rules.Yields.result (update_handling h ha hst
    (fun transfer he => absurd he (hrail transfer)) now
    fun w' h => Rules.Yields.pure (hf w' h))))

/-! ## Into the brokerage -/

/-- The deposit is funded and counted. -/
structure Counted (d : Deposit) : Prop where
  funded : d.status = .brokerFunded
  recorded : d.usageRecordedAt.isSome

theorem applyUsage_handling {Q : Bool → World → Prop} (h : Handling w₀ cs d w)
    (hQ : ∀ b w', Handling w₀ cs d w' → Q b w') :
    unhindered.Yields (Action.ask (Program.request (.applyUsage d.user d.id d.amount.value))) Q E
      w := by
  refine Rules.Yields.ask (Rules.Keeps.perform trivial fun _ a ha => ?_)
  rw [World.applyUsage_of_none (h.calm.faultless.fault? _)] at ha ⊢
  obtain ⟨b, rfl⟩ := Store.Usages.apply_answer (Decimal.not_le_zero d.amount) ha
  exact hQ b _ (h.untouched { Untouched.refl w with }
    ⟨h.calm.faultless, h.calm.creates, h.calm.lists, h.calm.fundings, h.calm.clear⟩)

theorem recordUsage_handling {Q : Deposit → World → Prop} (h : Handling w₀ cs d w)
    (hst : d.status = .brokerFunded)
    (hQ : ∀ d' w', Handling w₀ cs d' w' → d'.origin = d.origin → Counted d' → Q d' w') :
    unhindered.Yields (recordUsage d) Q E w := by
  refine Rules.Yields.bind (applyUsage_handling h fun _ w h => ?_)
  refine advance_handling h hst hst (fun _ => Event.noConfusion) fun now w h => ?_
  exact Rules.Yields.pure (hQ _ w h (Deposit.origin_after d _ now) ⟨hst, rfl⟩)

theorem payIn_handling {Q : String → World → Prop} {account : String}
    (h : Handling w₀ cs d w) (hpos : ¬ d.settledAmount ≤ .zero)
    (hQ : ∀ ref w', Handling w₀ cs d w' → Q ref w') :
    unhindered.Yields (Action.retrying (policy s) (payIn d.id.toText account d.settledAmount)) Q E
      w := by
  refine Rules.retrying_calm trivial h.calm.not_aborted ?_
  obtain ⟨ref, ms, v, hp, hv, huntouched⟩ :=
    World.fundAccount_of_calm h.calm d.id.toText account hpos
  refine Rules.Yields.bind (Rules.Yields.lift (Rules.Keeps.answered trivial (fun _ => hp)
    fun _ => ?_))
  refine Rules.receive_calm (fun _ => trivial) hv fun w' hw' hmoved => hQ ref w' ?_
  exact h.untouched (huntouched.trans hmoved.untouched) hw'

theorem fundClaimed_handling {Q : Deposit → World → Prop} (h : Handling w₀ cs d w)
    (hst : d.status = .railCompleted) (haccount : ∃ a, w₀.accounts.get? d.account = some a)
    (hpos : ¬ d.settledAmount ≤ .zero)
    (hQ : ∀ d' w', Handling w₀ cs d' w' → d'.origin = d.origin → Counted d' → Q d' w') :
    unhindered.Yields (fundClaimed s d.id) Q E w := by
  obtain ⟨a, ha⟩ := haccount
  refine Rules.Yields.bind (Rules.Yields.ask (Rules.Keeps.answered trivial
    (fun _ => World.look_of_faultless h.calm.faultless .depositsById _) fun _ => ?_))
  rw [h.stored]
  refine Rules.Yields.bind (Rules.Yields.pure ?_)
  dsimp only
  rw [if_neg (by simp [hst])]
  refine Rules.Yields.bind (Rules.Yields.ask (Rules.Keeps.answered trivial
    (fun _ => World.look_of_faultless h.calm.faultless .accountsById _) fun _ => ?_))
  rw [h.accounts, ha]
  refine Rules.Yields.bind (Rules.Yields.pure ?_)
  refine Rules.Yields.bind (payIn_handling h hpos fun ref w h => ?_)
  refine advance_handling h hst hst (fun _ => Event.noConfusion) fun now w h => ?_
  refine Rules.Yields.bind (Rules.Yields.result (recordUsage_handling h rfl
    fun d' w h horigin hd' => ?_))
  exact Rules.Yields.pure (hQ d' w h (horigin.trans (Deposit.origin_after d _ now)) hd')

theorem Handling.claim (h : Handling w₀ cs d w) (cs' : List Uuid) :
    Handling w₀ cs' d { w with claims := cs' } :=
  ⟨⟨h.calm.faultless, h.calm.creates, h.calm.lists, h.calm.fundings, h.calm.clear⟩, h.stored,
    h.others, h.accounts, rfl, h.transfers, h.opened⟩

theorem fund_handling {Q : Deposit → World → Prop} (h : Handling w₀ cs d w)
    (hst : d.status = .railCompleted) (hfree : d.id ∉ cs)
    (haccount : ∃ a, w₀.accounts.get? d.account = some a) (hpos : ¬ d.settledAmount ≤ .zero)
    (hQ : ∀ d' w', Handling w₀ cs d' w' → d'.origin = d.origin → Counted d' → Q d' w') :
    unhindered.Yields (fund s d) Q E w := by
  have hclaim : w.perform (.claim d.id) = (.ok true, { w with claims := d.id :: cs }) := by
    rw [← h.claims] at hfree ⊢
    simp only [World.perform, if_neg hfree]
  unfold fund
  dsimp only
  rw [if_neg (by simp [hst])]
  refine Rules.Yields.bind (Rules.Yields.lift (Rules.Keeps.answered trivial (fun _ => hclaim)
    fun _ => ?_))
  refine Rules.Yields.bind (Rules.Yields.result (fundClaimed_handling (h.claim (d.id :: cs)) hst
    haccount hpos fun d' w h horigin hd' => ?_))
  -- The claim is the first of the list again when it is released.
  have hrelease : w.perform (.release d.id) = (.ok (), { w with claims := cs }) := by
    simp only [World.perform, h.claims, List.erase_cons_head]
  refine Rules.Yields.bind (Rules.Yields.lift (Rules.Keeps.answered trivial (fun _ => hrelease)
    fun _ => ?_))
  exact Rules.Yields.pure (hQ d' _ (h.claim cs) horigin hd')

/-! ## Onto the rail -/

theorem startRail_handling {Q : Deposit → World → Prop} (h : Handling w₀ cs d w)
    (hst : d.status = .created) (hv : s.provider.validate (request s d) = .ok ())
    (hQ : ∀ d' w', Handling w₀ cs d' w' → d'.origin = d.origin → d'.status = .railInitiated →
      Q d' w') :
    unhindered.Yields (startRail s d) Q E w := by
  refine Rules.Yields.bind (Rules.Yields.result (Rules.Yields.mono
    (order_calm (F := fun _ _ => False) trivial (fun _ => trivial) (fun _ => trivial) h.calm hv) ?_
    fun _ _ => False.elim))
  rintro response w' ⟨hcalm, huntouched, t, hfind, htransfer⟩
  refine advance_handling (h.untouched huntouched hcalm) hst hst (fun transfer he => ?_)
    fun now w' h => Rules.Yields.pure (hQ _ w' h (Deposit.origin_after d _ now) rfl)
  cases he
  obtain ⟨hmem, href⟩ := Rail.Sandbox.mem_origins_of_findReference? hfind
  exact ⟨t.origin, hmem, htransfer.symm, href⟩

/-! ## News from the rail -/

/-- The transfer is known to the rail and not at its end. -/
def OnTheWay (w : World) (transfer : String) : Prop :=
  ∃ t, w.rail.find? transfer = some t ∧ (t.state = .pending ∨ t.state = .paymentProcessed)

/-- The deposit of a transfer that the rail knows, and what it takes to find both. -/
structure Linked (s : Settings) (w : World) (d : Deposit) (t : Rail.Transfer) : Prop where
  linked : w.deposits.getByTransfer? t.id = some d
  held : t ∈ w.rail.transfers
  ids : (w.rail.transfers.map (·.id)).Nodup
  length_le : w.rail.transfers.length ≤ twoTo 64
  page : 0 < s.provider.listPageSize

theorem linked_of_countable (hw : Countable w) (hpage : 0 < s.provider.listPageSize)
    (hd : w.deposits.get? d.id = some d) {transfer : String} (ht : d.transfer = some transfer) :
    ∃ t, w.rail.find? transfer = some t ∧ t.id = transfer ∧ Linked s w d t := by
  have hm := hw.consistent.matched
  obtain ⟨t, hfind, -, -⟩ := hm.transfer_of_linked hd ht
  obtain ⟨-, hid⟩ := Rail.Sandbox.mem_origins_of_find? hfind
  have hid : t.id = transfer := hid
  refine ⟨t, hfind, hid, ?_, List.mem_of_find?_eq_some hfind, ?_, hw.length_le, hpage⟩
  · rw [hid]
    exact (hm.indexed.getByTransfer?_eq_some_iff hw.consistent.sound.deposits).mpr ⟨hd, ht⟩
  · have hids := hm.ids
    rwa [Rail.Sandbox.origins, List.map_map] at hids

variable {K : World → Prop} {P : Request → Prop} {t : Rail.Transfer}

/-- News that a transfer is still on its way changes nothing. -/
theorem callback_pending (hP : ∀ r, World.Looks r → P r) (hcalm : w.Calm 0) (h : Linked s w d t)
    (hst : d.status = .railInitiated) (ht : t.state = .pending ∨ t.state = .paymentProcessed) :
    (Rules.alone K P).Yields (callback s t.id)
      (fun out w' => out = .unchanged d.status ∧ w'.Calm 0 ∧ Unmoved w w') E w := by
  refine Rules.Yields.bind (Rules.Yields.ask (Rules.Keeps.answered (hP _ trivial)
    (fun _ => World.look_of_faultless hcalm.faultless .depositsByTransfer _) fun _ => ?_))
  rw [h.linked]
  dsimp only [Rules.either]
  rw [if_neg (by simp [hst])]
  refine Rules.Yields.next (poll_calm (hP _ trivial) (fun _ _ => hP _ trivial)
    (fun _ => hP _ trivial) h.page hcalm h.ids h.held h.length_le) ?_
  rintro response w' ⟨rfl, hcalm', hmoved⟩
  rcases ht with ht | ht
  all_goals
    rw [Rail.Transfer.response, ht]
    exact Rules.Yields.pure ⟨rfl, hcalm', hmoved⟩

/-- News that a transfer has come to its end takes the deposit to its own. -/
theorem callback_ended {Q : CallbackOutcome → World → Prop} (h : Handling w₀ cs d w)
    (hlinked : Linked s w d t) (hst : d.status = .railInitiated) (hfree : d.id ∉ cs)
    (haccount : ∃ a, w₀.accounts.get? d.account = some a)
    (hpaid : t.state = .completed → ∀ a, t.destination.amount = some a → ¬ a ≤ .zero)
    (ht : t.state = .completed ∨ t.state = .failed ∨ t.state = .unknown)
    (hQ : ∀ out d' w', Handling w₀ cs d' w' → d'.origin = d.origin →
      Counted d' ∨ d'.status = .failed → Q out w') :
    unhindered.Yields (callback s t.id) Q E w := by
  refine Rules.Yields.bind (Rules.Yields.ask (Rules.Keeps.answered trivial
    (fun _ => World.look_of_faultless h.calm.faultless .depositsByTransfer _) fun _ => ?_))
  rw [hlinked.linked]
  dsimp only [Rules.either]
  rw [if_neg (by simp [hst])]
  refine Rules.Yields.next (poll_calm trivial (fun _ _ => trivial) (fun _ => trivial) hlinked.page
    h.calm hlinked.ids hlinked.held hlinked.length_le) ?_
  rintro response w' ⟨rfl, hcalm, hmoved⟩
  replace h := h.untouched hmoved.untouched hcalm
  have hfailed (reason : String) : unhindered.Yields (do
      let failed ← mark d (.failed reason)
      if !(← persist failed d.status) then currentOutcome d.id
      else pure (.advanced d.status .failed)) Q E w' :=
    have hallows : d.Allows (.failed reason) := .inr (.inl hst)
    Rules.Yields.bind (mark_alone trivial hallows fun now =>
      persist_handling h.read hallows rfl (fun _ => Event.noConfusion) now fun w' h =>
        Rules.Yields.pure (hQ _ _ w' h (Deposit.origin_after d _ now) (.inr rfl)))
  rcases ht with ht | ht | ht
  · rw [Rail.Transfer.response, ht]
    have hallows : d.Allows (.railCompleted t.destination.amount) := hst
    refine Rules.Yields.bind (mark_alone trivial hallows fun now => persist_handling h.read hallows
      rfl (fun _ => Event.noConfusion) now fun w' h => ?_)
    have hpos : ¬ (d.after (.railCompleted t.destination.amount) now).settledAmount ≤ .zero := by
      cases hamount : t.destination.amount with
      | some a => exact hpaid ht a hamount
      | none => exact Decimal.not_le_zero d.amount
    refine Rules.Yields.bind (Rules.Yields.result (fund_handling h rfl hfree haccount hpos
      fun d' w' h horigin hd' => ?_))
    exact Rules.Yields.pure (hQ _ d' w' h (horigin.trans (Deposit.origin_after d _ now)) (.inl hd'))
  all_goals
    rw [Rail.Transfer.response, ht]
    exact hfailed _

end Causeway.Crossing
