import Causeway.Proofs.Crossing.Funding
import Causeway.Proofs.Crossing.Linking
import Causeway.Proofs.Store.Index

/-!
# Deposits and transfers match one to one

The rail makes one transfer for a reference, under a fresh id, and a deposit is linked only to the
transfer made under its own reference. So a link always finds its transfer, leads back to its
deposit, and is never in another deposit's way.
-/

namespace Causeway.World

variable {w w' : World} {d cur : Deposit} {expected : Deposit.Status} {r : Request}
  {transfer : String}

/-- The deposits and the rail agree on which transfer was made for which deposit. -/
structure Matched (w : World) : Prop where
  indexed : w.deposits.Indexed
  issued : ∀ ⦃id d⦄, w.deposits.get? id = some d → w.Issued id
  ids : (w.rail.origins.map (·.id)).Nodup
  references : (w.rail.origins.map (·.reference)).Nodup
  drawn : ∀ x ∈ w.rail.origins, ∃ n < w.drawn, x.id = Rail.Sandbox.idOf (w.ids n)
  needed : ∀ x ∈ w.rail.origins, ∃ d, w.deposits.get? d.id = some d ∧
    d.reference = x.reference ∧ some d.amount.value = x.amount
  linked : ∀ ⦃id d t⦄, w.deposits.get? id = some d → d.transfer = some t → w.Made t d.reference

/-! ## What is read off -/

theorem Matched.reference_of_made (h : w.Matched) {reference reference' : String}
    (hm : w.Made transfer reference) (hm' : w.Made transfer reference') :
    reference = reference' := by
  obtain ⟨x, hx, hid, rfl⟩ := hm
  obtain ⟨y, hy, hid', rfl⟩ := hm'
  rw [List.inj_on_of_nodup_map h.ids hx hy (hid.trans hid'.symm)]

/-- The transfer that a deposit is linked to is found by its id and by the deposit's reference, and
it was made for the deposit's amount. -/
theorem Matched.transfer_of_linked (h : w.Matched) {id : Uuid}
    (hd : w.deposits.get? id = some d) (ht : d.transfer = some transfer) :
    ∃ t, w.rail.find? transfer = some t ∧ w.rail.findReference? d.reference = some t ∧
      t.source.amount = some d.amount.value := by
  obtain ⟨x, hx, rfl, href⟩ := h.linked hd ht
  obtain ⟨t, hfind, ht⟩ := Rail.Sandbox.find?_of_mem_origins h.ids hx
  obtain ⟨t', hfind', ht'⟩ := Rail.Sandbox.findReference?_of_mem_origins h.references hx
  obtain rfl : t = t' := by
    have hmem := List.mem_of_find?_eq_some hfind
    have hmem' := List.mem_of_find?_eq_some hfind'
    have hids := h.ids
    rw [Rail.Sandbox.origins, List.map_map] at hids
    exact List.inj_on_of_nodup_map hids hmem hmem' (congrArg (·.id) (ht.trans ht'.symm))
  obtain ⟨d', hd', href', hamount⟩ := h.needed x hx
  have hid : d'.id = id := h.indexed.reference_inj hd' hd (href'.trans href)
  rw [hid, hd] at hd'
  cases hd'
  refine ⟨t, hfind, by rw [← href]; exact hfind', ?_⟩
  exact (congrArg (·.amount) ht).trans hamount.symm

theorem Matched.length_ofReference (h : w.Matched) (reference : String) :
    (w.rail.transfers.filter (·.reference = reference)).length ≤ 1 :=
  Rail.Sandbox.length_ofReference h.references reference

/-! ## Updates -/

/-- A permitted update whose deposit is still at the expected stage applies an event to it. -/
theorem Permits.applies (hp : w.Permits (.updateDeposit d expected))
    (hcur : w.deposits.get? d.id = some cur) (hst : cur.status = expected) :
    ∃ e now, cur.apply e now = .ok d := by
  obtain ⟨d₀, e, now, ⟨cur', hcur', hl⟩, hst₀, ha, -⟩ := hp
  have hid : d.id = d₀.id := congrArg Deposit.Origin.id (Deposit.origin_of_apply ha)
  rw [← hid, hcur] at hcur'
  cases hcur'
  exact ⟨e, now, hl.apply_eq (hst.trans hst₀.symm) ha⟩

/-- It keeps the deposit's transfer, and links it to none but the one made under its reference. -/
theorem Matched.transfer_of_update (h : w.Matched) (hs : w.Sound)
    (hp : w.Permits (.updateDeposit d expected)) (hl : w.Links (.updateDeposit d expected))
    (hcur : w.deposits.get? d.id = some cur) (hst : cur.status = expected) :
    (∀ t, cur.transfer = some t → d.transfer = some t) ∧
      ∀ t, d.transfer = some t → w.Made t d.reference := by
  obtain ⟨e, now, ha⟩ := hp.applies hcur hst
  refine ⟨((hs.deposits.coherent hcur).extends ha).transfer, fun t ht => ?_⟩
  by_cases hcreated : expected = .created
  · subst hcreated
    exact hl t ht
  · obtain ⟨hallows, rfl⟩ := Deposit.apply_eq_ok_iff.mp ha
    -- An event of a later stage leaves the link as it is.
    have hsame : (cur.after e now).transfer = cur.transfer := by
      cases e with
      | railInitiated t => exact absurd (hst.symm.trans hallows) hcreated
      | _ => rfl
    have href : (cur.after e now).reference = cur.reference :=
      congrArg Deposit.Origin.reference (Deposit.origin_after cur e now)
    rw [href]
    exact h.linked hcur (hsame.symm.trans ht)

/-- No other deposit has the transfer that a permitted update links to. -/
theorem Matched.otherOwner?_eq_none (h : w.Matched) (hs : w.Sound)
    (hp : w.Permits (.updateDeposit d expected)) (hl : w.Links (.updateDeposit d expected))
    (hcur : w.deposits.get? d.id = some cur) (hst : cur.status = expected) :
    w.deposits.otherOwner? d = none := by
  cases ht : d.transfer with
  | none => simp [Store.Deposits.otherOwner?, ht]
  | some transfer =>
      cases hlink : w.deposits.byTransfer.get? transfer with
      | none => simp [Store.Deposits.otherOwner?, ht, hlink]
      | some owner =>
          obtain ⟨other, hother, htother⟩ := (h.indexed.transfer transfer owner).mp hlink
          have hmade := (h.transfer_of_update hs hp hl hcur hst).2 transfer ht
          have href := h.reference_of_made hmade (h.linked hother htother)
          obtain ⟨e, now, ha⟩ := hp.applies hcur hst
          have hcurref : d.reference = cur.reference :=
            congrArg Deposit.Origin.reference (Deposit.origin_of_apply ha)
          have howner := h.indexed.reference_inj hcur hother (hcurref.symm.trans href)
          simp [Store.Deposits.otherOwner?, ht, hlink, howner]

theorem Matched.update_ne_taken (h : w.Matched) (hs : w.Sound)
    (hp : w.Permits (.updateDeposit d expected)) (hl : w.Links (.updateDeposit d expected))
    (owner : Uuid) :
    w.deposits.update d expected ≠ .error (.storage (.transferTaken transfer owner)) := by
  intro herror
  unfold Store.Deposits.update at herror
  cases hcur : w.deposits.byId.get? d.id with
  | none => simp [hcur] at herror
  | some cur =>
      by_cases hst : cur.status = expected
      · by_cases href : cur.reference = d.reference
        · simp [hcur, hst, href, h.otherOwner?_eq_none hs hp hl hcur hst] at herror
        · simp [hcur, hst, href] at herror
      · simp [hcur, hst] at herror

/-! ## What requests preserve -/

/-- A change that orders nothing keeps the match if the deposits keep it. -/
theorem Matched.grows (h : w.Matched) (hw : Grows w w')
    (horigins : w'.rail.origins = w.rail.origins)
    (hindexed : w'.deposits.Indexed)
    (hissued : ∀ ⦃id d⦄, w'.deposits.get? id = some d → w'.Issued id)
    (hlinked : ∀ ⦃id d t⦄, w'.deposits.get? id = some d → d.transfer = some t →
      w'.Made t d.reference) : w'.Matched where
  indexed := hindexed
  issued := hissued
  ids := by rw [horigins]; exact h.ids
  references := by rw [horigins]; exact h.references
  drawn x hx := by
    rw [horigins] at hx
    obtain ⟨n, hn, hid⟩ := h.drawn x hx
    exact ⟨n, Nat.lt_of_lt_of_le hn hw.drawn, by rw [hw.ids]; exact hid⟩
  needed x hx := by
    rw [horigins] at hx
    obtain ⟨d, hd, href, hamount⟩ := h.needed x hx
    obtain ⟨d', hd', hl⟩ := hw.later.deposits hd
    refine ⟨d', by rw [hl.id_eq]; exact hd', ?_, ?_⟩
    · exact (congrArg Deposit.Origin.reference hl.origin).trans href
    · rw [hl.amount_eq]; exact hamount
  linked := hlinked

theorem Matched.of_same (h : w.Matched) (hw : Grows w w') (hdeposits : w'.deposits = w.deposits)
    (horigins : w'.rail.origins = w.rail.origins) : w'.Matched := by
  refine h.grows hw horigins (by rw [hdeposits]; exact h.indexed) ?_ ?_
  · intro id d hd
    rw [hdeposits] at hd
    exact (h.issued hd).grows hw
  · intro id d t hd ht
    rw [hdeposits] at hd
    exact (h.linked hd ht).grows hw

theorem Matched.create (h : w.Matched) {deposits : Store.Deposits}
    (ht : d.transfer = none) (hissued : w.Issued d.id) (hc : w.deposits.create d = .ok deposits)
    (hw : Grows w { w with deposits }) : Matched { w with deposits } := by
  refine h.grows hw rfl (h.indexed.create ht hc) ?_ ?_
  · intro id d' hd'
    rw [Store.Deposits.get?_create hc] at hd'
    split at hd'
    · rename_i hid
      exact hid ▸ hissued
    · exact h.issued hd'
  · intro id d' t hd' ht'
    rw [Store.Deposits.get?_create hc] at hd'
    split at hd'
    · cases hd'
      rw [ht] at ht'
      cases ht'
    · exact h.linked hd' ht'

theorem Matched.update (h : w.Matched) (hs : w.Sound) {deposits : Store.Deposits}
    (hp : w.Permits (.updateDeposit d expected)) (hl : w.Links (.updateDeposit d expected))
    (hu : w.deposits.update d expected = .ok deposits) (hw : Grows w { w with deposits }) :
    Matched { w with deposits } := by
  obtain ⟨cur, hcur, hst, -⟩ := Store.Deposits.update_eq_ok hu
  obtain ⟨hkept, hmade⟩ := h.transfer_of_update hs hp hl hcur hst
  refine h.grows hw rfl (h.indexed.update hcur hkept hu) ?_ ?_
  · intro id d' hd'
    rw [Store.Deposits.get?_update hu] at hd'
    split at hd'
    · rename_i hid
      exact hid ▸ h.issued hcur
    · exact h.issued hd'
  · intro id d' t hd' ht'
    rw [Store.Deposits.get?_update hu] at hd'
    split at hd'
    · cases hd'
      exact hmade t ht'
    · exact h.linked hd' ht'

/-- A transfer that is made has a fresh id and a reference of its own. -/
theorem Matched.order (h : w.Matched) {o : Rail.Order} (hneeds : w.Needs o)
    (hnew : w.rail.findReference? o.reference = none) (hw : Grows w w')
    (hdeposits : w'.deposits = w.deposits) (hdrawn : w'.drawn = w.drawn + 1)
    (horigins : w'.rail.origins =
      w.rail.origins ++ [(Rail.Sandbox.opened o (w.ids w.drawn)).origin])
    (hfresh : w'.FreshIds) : w'.Matched where
  indexed := by rw [hdeposits]; exact h.indexed
  issued id d hd := by
    rw [hdeposits] at hd
    exact (h.issued hd).grows hw
  ids := by
    rw [horigins, List.map_append, List.nodup_append]
    refine ⟨h.ids, by simp, ?_⟩
    rintro x hx y hy rfl
    obtain ⟨z, hz, rfl⟩ := List.mem_map.mp hx
    obtain ⟨n, hn, hid⟩ := h.drawn z hz
    have hy : z.id = Rail.Sandbox.idOf (w.ids w.drawn) := List.mem_singleton.mp hy
    have hsame : w.ids n = w.ids w.drawn :=
      Uuid.toCompact_inj (String.append_right_inj _ |>.mp (hid.symm.trans hy))
    have := hfresh n (by omega) w.drawn (by omega) (by rw [hw.ids]; exact hsame)
    omega
  references := by
    rw [horigins]
    exact Rail.Sandbox.nodup_references_snoc h.references hnew
  drawn x hx := by
    rw [horigins, List.mem_append] at hx
    rcases hx with hx | hx
    · obtain ⟨n, hn, hid⟩ := h.drawn x hx
      exact ⟨n, Nat.lt_of_lt_of_le hn hw.drawn, by rw [hw.ids]; exact hid⟩
    · obtain rfl := List.mem_singleton.mp hx
      exact ⟨w.drawn, by omega, by rw [hw.ids]; rfl⟩
  needed x hx := by
    rw [hdeposits]
    rw [horigins, List.mem_append] at hx
    rcases hx with hx | hx
    · exact h.needed x hx
    · obtain rfl := List.mem_singleton.mp hx
      obtain ⟨d, hd, href, hamount⟩ := hneeds
      exact ⟨d, hd, href, congrArg some hamount⟩
  linked id d t hd ht := by
    rw [hdeposits] at hd
    exact (h.linked hd ht).grows hw

theorem Matched.perform (h : w.Matched) (hs : w.Sound) (hp : w.Permits r) (hl : w.Links r)
    (hfresh : (w.perform r).2.FreshIds) : (w.perform r).2.Matched := by
  have hw := perform_grows hs hp
  by_cases hcreate : ∃ d, r = .createDeposit d
  · obtain ⟨d, rfl⟩ := hcreate
    have hunlinked : d.transfer = none := by
      obtain ⟨_, _, _, _, _, _, _, rfl⟩ := hp
      rfl
    rcases createDeposit_cases w d with ⟨_, w', he, hq⟩ | ⟨deposits, hc, he⟩
    · have horigins := w.perform_transfers (r := .createDeposit d) fun _ => Request.noConfusion
      rw [he] at hw horigins ⊢
      exact h.of_same hw hq.deposits (congrArg (List.map Rail.Transfer.origin) horigins)
    · rw [he] at hw ⊢
      exact h.create hunlinked hl hc hw
  · by_cases hupdate : ∃ d expected, r = .updateDeposit d expected
    · obtain ⟨d, expected, rfl⟩ := hupdate
      rcases updateDeposit_cases hs.race d expected with ⟨_, w', he, hq⟩ | ⟨deposits, hu, he⟩
      · have horigins := w.perform_transfers (r := .updateDeposit d expected)
          fun _ => Request.noConfusion
        rw [he] at hw horigins ⊢
        exact h.of_same hw hq.deposits (congrArg (List.map Rail.Transfer.origin) horigins)
      · rw [he] at hw ⊢
        exact h.update hs hp hl hu hw
    · have hdeposits := w.perform_deposits (fun d hd => hcreate ⟨d, hd⟩)
        (fun d expected hd => hupdate ⟨d, expected, hd⟩)
      by_cases horder : ∃ o, r = .createTransfer o
      · obtain ⟨o, rfl⟩ := horder
        obtain ⟨_, -, ⟨hsame, -⟩ | ⟨hnew, -, hmade, hdrawn⟩⟩ := w.createTransfer_cases o
        · exact h.of_same hw hdeposits (congrArg (List.map Rail.Transfer.origin) hsame)
        · refine h.order hl hnew hw hdeposits hdrawn ?_ hfresh
          rw [Rail.Sandbox.origins, hmade, List.map_append]
          rfl
      · have hsame := w.perform_transfers fun o ho => horder ⟨o, ho⟩
        exact h.of_same hw hdeposits (congrArg (List.map Rail.Transfer.origin) hsame)

theorem matched_of_empty (hd : w.deposits = {}) (ht : w.rail.transfers = []) : w.Matched := by
  have horigins : w.rail.origins = [] := by rw [Rail.Sandbox.origins, ht]; rfl
  constructor
  · rw [hd]; exact .empty
  all_goals simp [hd, horigins, Store.Deposits.get?]

end Causeway.World

namespace Causeway.Crossing

variable {s : Settings} {σ σ' : System} {w w' : World}

theorem Disturbance.origins (h : Disturbance w w') : w'.rail.origins = w.rail.origins := by
  cases h with
  | complete transfer =>
      unfold World.completeTransfer
      split
      · rfl
      · rename_i hcomplete
        exact Rail.Sandbox.origins_complete? hcomplete
  | setState transfer state =>
      unfold World.setTransferState
      split
      · rfl
      · rename_i hset
        exact Rail.Sandbox.origins_setState? hset
  | _ => rfl

theorem Disturbance.grows (h : Disturbance w w') (hs : w.Sound) : World.Grows w w' where
  later := (World.Effect.quiet h.quiet).later hs
  origins := h.origins ▸ List.prefix_rfl
  ids := h.quiet.ids
  drawn := h.quiet.drawn

/-- Operations that keep to the rules run in a sound world whose deposits and transfers match, as
long as its identifiers are fresh. -/
structure System.Matching (σ : System) : Prop where
  orderly : σ.Orderly
  links : σ.Obeys linkRules
  matched : σ.world.FreshIds → σ.world.Matched

theorem System.matching_of_idle (hs : w.Sound) (hm : w.FreshIds → w.Matched) :
    System.Matching { world := w } :=
  ⟨System.orderly_of_idle hs, (fun _ ha => nomatch ha), hm⟩

theorem System.matching_of_empty (hd : w.deposits = {}) (ht : w.rail.transfers = [])
    (hrace : w.script.race = none) : System.Matching { world := w } :=
  System.matching_of_idle ⟨by rw [hd]; exact Store.Deposits.Sound.empty, hrace⟩
    fun _ => World.matched_of_empty hd ht

theorem Step.fresh (h : Step s σ σ') (hm : σ.Matching) (hfresh : σ'.world.FreshIds) :
    σ.world.FreshIds :=
  (h.effect hm.orderly.sound hm.orderly.obeys).freshIds hfresh

theorem Step.matching (h : Step s σ σ') (hm : σ.Matching) : σ'.Matching := by
  refine ⟨h.orderly hm.orderly, ?_, fun hfresh => ?_⟩
  · have hs := hm.orderly.sound
    cases h with
    | start op => exact hm.links.start (program_links op _)
    | turn hr =>
        exact hm.links.turn linkRules_shared hr ⟨hs, hm.orderly.obeys.permits hr hs⟩
    | disturb hd => exact hm.links.disturb (hd.grows hs)
  · have hs := hm.orderly.sound
    have hmatched := hm.matched (h.fresh hm hfresh)
    cases h with
    | start op => exact hmatched
    | turn hr =>
        have hp := hm.orderly.obeys.permits hr hs
        exact hmatched.perform hs hp (hm.links.permits hr ⟨hs, hp⟩) hfresh
    | disturb hd => exact hmatched.of_same (hd.grows hs) hd.quiet.deposits hd.origins

theorem Run.matching (h : Run s σ σ') (hm : σ.Matching) : σ'.Matching := by
  induction h with
  | refl => exact hm
  | tail _ h ih => exact h.matching ih

/-- Every request of a run was permitted, in a world whose deposits and transfers matched. -/
theorem Run.history_matched (h : Run s { world := w } σ) (hm : System.Matching { world := w })
    (hfresh : σ.world.FreshIds) : ∀ x ∈ σ.history, x.before.Sound ∧ x.before.Matched ∧
      x.before.Permits x.request ∧ x.before.Links x.request := by
  induction h with
  | refl => exact fun x hx => nomatch hx
  | @tail σ σ' hrun hstep ih =>
      have hσ := Run.matching hrun hm
      have hfresh' := hstep.fresh hσ hfresh
      cases hstep with
      | start op => exact ih hfresh'
      | disturb hd => exact ih hfresh'
      | turn hr =>
          intro x hx
          rcases List.mem_cons.mp hx with rfl | hx
          · have hs := hσ.orderly.sound
            have hp := hσ.orderly.obeys.permits hr hs
            exact ⟨hs, hσ.matched hfresh', hp, hσ.links.permits hr ⟨hs, hp⟩⟩
          · exact ih hfresh' x hx

/-- In every run from empty stores the rail has made one transfer for a reference at most, and each
deposit that is linked is linked to the transfer made under its own reference and for its amount. No
other deposit is linked to it, the store finds the deposit by it, and no update has ever been
refused because of another owner. -/
theorem deposits_match_transfers (hd : w.deposits = {}) (ht : w.rail.transfers = [])
    (hrace : w.script.race = none) (hrun : Run s { world := w } σ) (hfresh : σ.world.FreshIds) :
    (∀ reference, (σ.world.rail.transfers.filter (·.reference = reference)).length ≤ 1) ∧
      (∀ id d transfer, σ.world.deposits.get? id = some d → d.transfer = some transfer →
        ∃ t, σ.world.rail.find? transfer = some t ∧
          σ.world.rail.findReference? d.reference = some t ∧
          t.source.amount = some d.amount.value) ∧
      (∀ id id' d d' transfer, σ.world.deposits.get? id = some d →
        σ.world.deposits.get? id' = some d' → d.transfer = some transfer →
        d'.transfer = some transfer → id = id') ∧
      (∀ transfer d, σ.world.deposits.getByTransfer? transfer = some d ↔
        σ.world.deposits.get? d.id = some d ∧ d.transfer = some transfer) ∧
      ∀ v d expected, ⟨v, .updateDeposit d expected⟩ ∈ σ.history → ∀ transfer owner,
        v.deposits.update d expected ≠ .error (.storage (.transferTaken transfer owner)) := by
  have hempty := System.matching_of_empty hd ht hrace
  have hσ := hrun.matching hempty
  have hs := hσ.orderly.sound
  have hm := hσ.matched hfresh
  refine ⟨hm.length_ofReference, fun id d transfer hd ht => hm.transfer_of_linked hd ht, ?_, ?_, ?_⟩
  · exact fun id id' d d' transfer hd hd' ht ht' => hm.indexed.transfer_inj hd hd' ht ht'
  · exact fun transfer d => hm.indexed.getByTransfer?_eq_some_iff hs.deposits
  · intro v d expected hx transfer owner
    obtain ⟨hs, hm, hp, hl⟩ := hrun.history_matched hempty hfresh _ hx
    exact hm.update_ne_taken hs hp hl owner

/-- A deposit that has gone all the way is found by the transfer that was made for it. -/
theorem sample_matches : ∃ d t,
    (Sample.paid .epoch).world.deposits.getByTransfer? Sample.transfer = some d ∧
      (Sample.paid .epoch).world.rail.findReference? d.reference = some t ∧
      t.id = Sample.transfer ∧ t.source.amount = some d.amount.value := by
  have hlinked : ((Sample.paid .epoch).world.deposits.get? Sample.deposit).map (·.transfer) =
      some (some Sample.transfer) := by decide
  have hfresh : (Sample.paid .epoch).world.FreshIds := by
    unfold World.FreshIds
    decide
  obtain ⟨d, hd, ht⟩ := Option.map_eq_some_iff.mp hlinked
  have hid : d.id = Sample.deposit :=
    ((Sample.run_paid .epoch).orderly (System.orderly_of_idle
      ⟨Store.Deposits.Sound.empty, rfl⟩)).sound.deposits.id_eq hd
  obtain ⟨-, hmatch, -, hindex, -⟩ := deposits_match_transfers rfl rfl rfl (Sample.run_paid .epoch)
    hfresh
  obtain ⟨t, hfind, href, hamount⟩ := hmatch _ d _ hd ht
  refine ⟨d, t, (hindex _ d).mpr ⟨by rw [hid]; exact hd, ht⟩, href, ?_, hamount⟩
  exact (Rail.Sandbox.mem_origins_of_find? hfind).2

end Causeway.Crossing
