import Causeway.Proofs.Crossing.Reached

/-!
# What an initiation answers is what it has stored

An initiation that is refused stores and orders nothing. Any other stores one deposit, and its
answer tells how far it has come with it: onto the rail, into failure for the reason given, or, if
it was aborted, no further (`initiate_tells_what_is_stored`).
-/

namespace Causeway.Crossing

open Deposit (Event Status)
open World (SameBut)

variable {s : Settings} {w w' : World} {d d' : Deposit} {user : Uuid}
  {railAccount reference : String} {amount : Amount} {deposits : Store.Deposits}

/-- Why an initiation may be refused before anything is stored. -/
inductive Refused (w : World) (user : Uuid) (railAccount reference : String) : Failure → Prop where
  | blank (h : Text.isBlankText reference) :
      Refused w user railAccount reference (.invalid .noReference)
  | unknown (h : w.accountByRail? railAccount = none) :
      Refused w user railAccount reference (.notFound .virtualAccount railAccount)
  | foreign {a : VirtualAccount} (h : w.accountByRail? railAccount = some a) (hu : a.user ≠ user) :
      Refused w user railAccount reference (.invalid (.foreignAccount railAccount user))
  | taken {id : Uuid} {d : Deposit} (h : w.deposits.get? id = some d)
      (href : d.reference = reference) :
      Refused w user railAccount reference (.duplicateReference reference)

/-- The deposit is stored and was not before, and no other deposit has changed. -/
structure Adds (w w' : World) (d : Deposit) : Prop where
  new : w.deposits.get? d.id = none
  stored : w'.deposits.get? d.id = some d
  others : SameBut d.id w w'

/-- The answer agrees with the deposit: it is on the rail, it has failed for the reason given, or an
abort has left it where it was. -/
def Agrees (w : World) (d : Deposit) : Except Failure Deposit → Prop
  | .ok d' => d' = d ∧ d.status = .railInitiated ∧
      ∃ t, w.rail.findReference? d.reference = some t ∧ d.transfer = some t.id
  | .error e =>
    if e = .cancelled ∨ w.timer.aborted then
      d.status = .created ∧ d.transfer = none ∧ d.failureReason = none
    else d.status = .failed ∧ d.transfer = none ∧ d.failureReason = some e.message

/-! ## The order -/

/-- These deposits are stored, and no fault is in the way of others. -/
structure Keeping (deposits : Store.Deposits) (w : World) : Prop where
  deposits : w.deposits = deposits
  faultless : w.script.Faultless

/-- Whatever the initiation asks for is answered. -/
abbrev answered : Rules := Rules.alone Consistent fun r => World.counts r = false

theorem order_agrees (hw : Keeping deposits w) :
    answered.Yields (Action.retrying (policy s) (Provider.convert s.provider (request s d)))
      (fun response w => Keeping deposits w ∧
        ∃ t, w.rail.findReference? d.reference = some t ∧ response.transfer = t.id)
      (fun _ w => Keeping deposits w) w := by
  have hask {r : Request} (hr : World.counts r = false)
      (hsame : ∀ w : World, (w.perform r).2.deposits = w.deposits) :
      answered.Spares (Keeping deposits) r := Rules.spares_alone hr fun w _ hw =>
    ⟨(hsame w).trans hw.deposits, World.perform_faultless hw.faultless r⟩
  refine Rules.Yields.mono (Rules.Yields.attempting (F := fun _ => True) (hask rfl fun _ => rfl)
    (fun _ => hask rfl fun _ => rfl) trivial (fun w hw => ?_) hw) (fun _ _ h => h) fun _ _ h => h.1
  refine Rules.Yields.bind ?_
  cases s.provider.validate (request s d) with
  | error e => exact ⟨hw, trivial⟩
  | ok _ =>
      set o := s.provider.order (request s d) with ho
      refine Rules.Yields.bind (Rules.Yields.bind (Rules.Yields.lift
        (Rules.Keeps.perform rfl fun _ reply hreply => ?_)))
      set w₁ := (w.perform (.createTransfer o)).2 with hw₁
      have hkeep : Keeping deposits w₁ :=
        ⟨(w.createTransfer_quiet o).deposits.trans hw.deposits,
          World.perform_faultless hw.faultless _⟩
      -- The answer is still on its way, but the transfer is there.
      have hfind : ∀ t, reply.answer = .ok t → w₁.rail.findReference? d.reference = some t :=
        fun t ht => World.findReference?_createTransfer hreply ht
      refine Rules.Yields.mono (Rules.Yields.receive (F := fun _ => True)
        (J := fun w => Keeping deposits w ∧
          ∀ t, reply.answer = .ok t → w.rail.findReference? d.reference = some t)
        (fun ms => Rules.spares_alone rfl fun w _ hw => ⟨⟨hw.1.deposits, hw.1.faultless⟩, hw.2⟩)
        (fun _ _ => trivial) ⟨hkeep, hfind⟩) ?_ ?_
      · rintro t w ⟨⟨hw, hfind⟩, ht⟩
        exact Rules.Yields.pure ⟨hw, t, hfind t ht, rfl⟩
      · rintro (_ | e) w hw
        · exact hw.1
        · exact ⟨hw.1.1, trivial⟩

/-! ## One stored deposit -/

/-- What has become of a deposit that was stored as new agrees with the answer. -/
def Tells (deposits : Store.Deposits) (d : Deposit) (r : Except Failure Deposit) (w : World) :
    Prop :=
  ∃ d', w.deposits.get? d.id = some d' ∧ d'.origin = d.origin ∧
    (∀ id, id ≠ d.id → w.deposits.get? id = deposits.get? id) ∧ Agrees w d' r

theorem startRail_tells (hw : Keeping deposits w) (hd : deposits.get? d.id = some d)
    (hst : d.status = .created) (ht : d.transfer = none) (hreason : d.failureReason = none) :
    answered.Yields (startRail s d) (fun d' => Tells deposits d (.ok d'))
      (fun e => Tells deposits d (.error e)) w := by
  have hstored {w : World} (hw : Keeping deposits w) : w.deposits.get? d.id = some d := by
    rw [hw.deposits]; exact hd
  have hcreated {w : World} {e : Failure} (hw : Keeping deposits w)
      (habort : e = .cancelled ∨ w.timer.aborted) : Tells deposits d (.error e) w := by
    refine ⟨d, hstored hw, rfl, fun _ _ => by rw [hw.deposits], ?_⟩
    rw [Agrees, if_pos habort]
    exact ⟨hst, ht, hreason⟩
  -- An update that goes through leaves what the event has made of the deposit.
  have hmoved {w : World} {e : Event} {now : Instant} {deposits' : Store.Deposits}
      {r : Except Failure Deposit} (hw : Keeping deposits w)
      (hu : w.deposits.update (d.after e now) .created = .ok deposits')
      (hr : Agrees { w with deposits := deposits' } (d.after e now) r) :
      Tells deposits d r { w with deposits := deposits' } := by
    have hid : (d.after e now).id = d.id :=
      congrArg Deposit.Origin.id (Deposit.origin_after d e now)
    refine ⟨d.after e now, ?_, Deposit.origin_after d e now, fun id hne => ?_, hr⟩
    · rw [← hid]
      exact Store.Deposits.get?_update_self hu
    · rw [Store.Deposits.get?_update hu, if_neg (by rw [hid]; exact hne.symm), hw.deposits]
  refine Rules.Yields.bind (Rules.Yields.result (Rules.Yields.mono (order_agrees hw) ?_ ?_))
  · rintro response w ⟨hw, t, hfind, htransfer⟩
    have hread : Keeping deposits { w with readings := w.readings + 1 } :=
      ⟨hw.deposits, hw.faultless⟩
    refine Rules.Yields.bind (mark_alone rfl hst fun now => ?_)
    refine Rules.Yields.bind (update_alone rfl hw.faultless (fun hk => hk.sound.race) (fun hk => ?_)
      fun deposits' hu => Rules.Yields.pure ?_)
    · have := update_accepted hk (e := .railInitiated response.transfer) (hstored hread) hst ?_ now
      · rwa [hst] at this
      · intro transfer he
        cases he
        obtain ⟨hmem, href⟩ := Rail.Sandbox.mem_origins_of_findReference? hfind
        exact ⟨t.origin, hmem, htransfer.symm, href⟩
    · exact hmoved hread hu ⟨rfl, rfl, t, hfind, congrArg some htransfer⟩
  · intro e w hw
    refine Rules.Yields.bind (Rules.Yields.lift (Rules.Keeps.answered rfl (fun _ => rfl)
      fun _ => ?_))
    dsimp only
    split
    · rename_i habort
      exact Rules.Yields.throw (hcreated hw (by simpa using habort))
    · rename_i habort
      have hread : Keeping deposits { w with readings := w.readings + 1 } :=
        ⟨hw.deposits, hw.faultless⟩
      refine Rules.Yields.bind (mark_alone rfl (.inl hst) fun now => ?_)
      refine Rules.Yields.bind (Rules.Yields.result (update_alone rfl hw.faultless
        (fun hk => hk.sound.race) (fun hk => ?_) fun deposits' hu => Rules.Yields.throw ?_))
      · have := update_accepted hk (e := .failed e.message) (hstored hread) (.inl hst)
          (fun _ => Event.noConfusion) now
        rwa [hst] at this
      · refine hmoved hread hu ?_
        rw [Agrees, if_neg (by simpa using habort)]
        exact ⟨rfl, ht, rfl⟩

/-! ## An initiation -/

/-- An initiation is refused with nothing done, or stores one deposit that its answer agrees with.
-/
def Told (w : World) (user : Uuid) (railAccount reference : String) (amount : Amount)
    (r : Except Failure Deposit) (w' : World) : Prop :=
  (∃ e, Refused w user railAccount reference e ∧ r = .error e ∧ w'.deposits = w.deposits ∧
      w'.rail = w.rail) ∨
    (¬ ∃ e, Refused w user railAccount reference e) ∧ ∃ d, Adds w w' d ∧ d.user = user ∧
      d.reference = reference ∧ d.amount = amount ∧ Agrees w' d r

/-- A deposit that is stored does not have the identifier that is drawn next. -/
theorem Consistent.get?_next (h : Consistent w) (h' : Consistent { w with drawn := w.drawn + 1 }) :
    w.deposits.get? (w.ids w.drawn) = none := by
  rw [Option.eq_none_iff_forall_ne_some]
  intro d hd
  obtain ⟨n, hn, hid⟩ := h.matched.issued hd
  have := h'.fresh w.drawn (Nat.lt_succ_self _) n (Nat.lt_succ_of_lt hn) hid
  omega

theorem initiate_tells (hf : w.script.Faultless) (user : Uuid) (railAccount : String)
    (amount : Amount) (reference : String) :
    answered.Yields (initiate s user railAccount amount reference)
      (fun d => Told w user railAccount reference amount (.ok d))
      (fun e => Told w user railAccount reference amount (.error e)) w := by
  have hrefused {v : World} {e : Failure} (he : Refused w user railAccount reference e)
      (hdeposits : v.deposits = w.deposits) (hrail : v.rail = w.rail) :
      Told w user railAccount reference amount (.error e) v := .inl ⟨e, he, rfl, hdeposits, hrail⟩
  unfold initiate
  dsimp only
  split
  · exact Rules.Yields.throw (hrefused (.blank ‹_›) rfl rfl)
  rename_i hblank
  refine Rules.Yields.bind (Rules.Yields.ask (Rules.Keeps.answered rfl
    (fun _ => World.look_of_faultless hf .accountsByRail _) fun _ => ?_))
  refine Rules.Yields.bind (Rules.Yields.orNotFound (fun account haccount => ?_)
    fun hnone => hrefused (.unknown hnone) rfl rfl)
  split
  · exact Rules.Yields.throw (hrefused (.foreign haccount ‹_›) rfl rfl)
  rename_i howner
  refine Rules.Yields.bind (Rules.Yields.lift (Rules.Keeps.answered (r := .now) rfl (fun _ => rfl)
    fun _ => ?_))
  set v : World := { w with readings := w.readings + 1 } with hv
  refine Rules.Yields.bind (Rules.Yields.lift (Rules.Keeps.answered (r := .freshId) rfl
    (fun _ => rfl) fun hk => ?_))
  set d := Deposit.start (v.ids v.drawn) user account.id reference amount s.crossing.currency
    (w.clock w.readings) with hd
  refine Rules.Yields.bind (Rules.Yields.ask (Rules.Keeps.perform rfl fun hk' a ha => ?_))
  have hnew : w.deposits.get? d.id = none := hk.get?_next hk'
  rw [World.createDeposit_of_faultless (by exact hf), World.createDeposit] at ha ⊢
  rcases hk.matched.indexed.create_of_new hnew with ⟨⟨id, d', hd', href⟩, hc⟩ | ⟨hfree, D, hc⟩
  · rw [hc] at ha ⊢
    cases ha
    exact hrefused (.taken hd' href) rfl rfl
  · rw [hc] at ha ⊢
    cases ha
    have hget (id : Uuid) : D.get? id = if d.id = id then some d else w.deposits.get? id :=
      Store.Deposits.get?_create hc
    have htold : ∀ {r w'}, Tells D d r w' → Told w user railAccount reference amount r w' := by
      rintro r w' ⟨d', hd', horigin, hothers, hagrees⟩
      have hid : d'.id = d.id := congrArg Deposit.Origin.id horigin
      refine .inr ⟨?_, d', ⟨by rw [hid]; exact hnew, by rw [hid]; exact hd', fun id hne => ?_⟩,
        congrArg Deposit.Origin.user horigin, congrArg Deposit.Origin.reference horigin,
        congrArg Deposit.Origin.amount horigin, hagrees⟩
      · rintro ⟨e, he⟩
        cases he with
        | blank h => exact hblank h
        | unknown h => rw [h] at haccount; cases haccount
        | foreign h hu =>
            rw [h] at haccount
            cases haccount
            exact howner hu
        | taken h href => exact hfree _ _ h href
      · rw [hid] at hne
        rw [hothers id hne, hget, if_neg hne.symm]
    have hkeeping : Keeping D { v with drawn := v.drawn + 1, deposits := D } := ⟨rfl, hf⟩
    refine Rules.Yields.mono (startRail_tells hkeeping ((hget d.id).trans (if_pos rfl)) rfl rfl rfl)
      (fun _ _ h => htold h) fun _ _ h => htold h

/-- No overflow of its own ends an initiation. -/
theorem initiate_only (s : Settings) (user : Uuid) (railAccount : String) (amount : Amount)
    (reference : String) :
    (initiate s user railAccount amount reference).run.Only fun _ => True :=
  only_initiate trivial trivial trivial (fun _ => trivial) (fun _ => trivial) trivial
    (fun _ => trivial) fun _ => trivial

/-- Wherever operations have led, whatever fails at the rail or is slow there and whenever an abort
comes, an initiation that is alone gives an answer and tells what it has stored: nothing if it was
refused, and else one deposit, on the rail, failed for the reason given, or left as new by an abort.
-/
theorem initiate_tells_what_is_stored (h : Reached s w) (hf : w.script.Faultless) (user : Uuid)
    (railAccount : String) (amount : Amount) (reference : String)
    (hfresh : (w.run (initiate s user railAccount amount reference).run).2.FreshIds) :
    ∃ r w', w.run (initiate s user railAccount amount reference).run = (.ok r, w') ∧
      ((∃ e, Refused w user railAccount reference e ∧ r = .error e ∧
          w'.deposits = w.deposits ∧ w'.rail = w.rail) ∨
        (¬ ∃ e, Refused w user railAccount reference e) ∧ ∃ d, Adds w w' d ∧ d.user = user ∧
          d.reference = reference ∧ d.amount = amount ∧ Agrees w' d r) := by
  have halong := along_consistent h.sound h.matched
    (initiate_safe user railAccount amount reference w)
    (initiate_links user railAccount amount reference w) hfresh
  obtain ⟨r, w', hrun, -, htold⟩ := World.run_answered (fun r hr w => w.perform_ok hr)
    (initiate_only s user railAccount amount reference) halong
    (initiate_tells hf user railAccount amount reference)
  refine ⟨r, w', hrun, ?_⟩
  cases r with
  | ok d => exact htold
  | error e => exact htold

/-- The order was placed, but the answer came too late. -/
theorem sample_tells : ∃ d w', Adds Sample.slowed w' d ∧ d.reference = "reference" ∧
    d.status = .created ∧ w'.rail.transfers.length = 1 := by
  have hanswer : ((Sample.slowed.run (initiate .standard Sample.user Sample.account.railAccount
      Sample.amount "reference").run).1 = .ok (.error .cancelled)) := rfl
  have hordered : ((Sample.slowed.run (initiate .standard Sample.user Sample.account.railAccount
      Sample.amount "reference").run).2.rail.transfers.length = 1) := by decide
  obtain ⟨r, w', hrun, htold⟩ := initiate_tells_what_is_stored (s := .standard)
    (.empty rfl rfl rfl : Reached .standard Sample.slowed) ⟨rfl, rfl⟩ Sample.user
    Sample.account.railAccount Sample.amount "reference" (by unfold World.FreshIds; decide)
  rw [hrun] at hanswer hordered
  cases hanswer
  rcases htold with ⟨e, he, heq, -⟩ | ⟨-, d, hadds, -, href, -, hagrees⟩
  · cases heq
    cases he
  · rw [Agrees, if_pos (.inl rfl)] at hagrees
    exact ⟨d, w', hadds, href, hagrees.1, hordered⟩

end Causeway.Crossing
