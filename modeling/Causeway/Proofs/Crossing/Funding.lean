import Causeway.Proofs.Crossing.Conduct
import Causeway.Proofs.Crossing.Solo
import Causeway.Proofs.Uuid

/-!
# Money moves once

The key of a funding is the text of a deposit's id, and the brokerage pays a key once. `Paid` ties
the three books together: what the brokerage has paid, under which keys, and what the deposits say.
-/

namespace Causeway.World

open Brokerage (Funding)

variable {w w' : World}

/-- No identifier has been drawn twice. -/
def FreshIds (w : World) : Prop :=
  ∀ i, i < w.drawn → ∀ j, j < w.drawn → w.ids i = w.ids j → i = j

theorem Effect.freshIds (he : Effect w w') (h : w'.FreshIds) : w.FreshIds := by
  obtain ⟨hids, hdrawn⟩ := he.ids
  intro i hi j hj hij
  exact h i (by omega) j (by omega) (by rw [hids]; exact hij)

/-- The fundings paid under the key of a deposit. -/
def fundingsOf (w : World) (id : Uuid) : List Funding :=
  w.brokerage.fundings.filter fun f => w.brokerage.byKey.get? id.toText = some f.reference

/-- The funding pays the deposit in: its settled amount, into its account. -/
structure PaysIn (w : World) (f : Funding) (d : Deposit) (a : VirtualAccount) : Prop where
  stored : w.deposits.get? d.id = some d
  settled : d.Settled
  key : w.brokerage.byKey.get? d.id.toText = some f.reference
  found : w.accounts.get? d.account = some a
  account : f.account = a.brokerageAccount
  amount : f.amount = d.settledAmount

structure Paid (w : World) : Prop where
  funding : ∀ f ∈ w.brokerage.fundings, ∃ d a, w.PaysIn f d a
  distinct : (w.brokerage.fundings.map (·.reference)).Nodup
  drawn : ∀ f ∈ w.brokerage.fundings,
    ∃ n < w.drawn, f.reference = Brokerage.Sandbox.referenceOf (w.ids n)
  known : ∀ ⦃key ref⦄, w.brokerage.byKey.get? key = some ref →
    ∃ f ∈ w.brokerage.fundings, f.reference = ref
  keyed : ∀ ⦃key key' ref⦄, w.brokerage.byKey.get? key = some ref →
    w.brokerage.byKey.get? key' = some ref → key = key'
  funded : ∀ ⦃id d⦄, w.deposits.get? id = some d → d.status = .brokerFunded →
    ∃ ref, d.fundingRef = some ref ∧ w.brokerage.byKey.get? id.toText = some ref

/-! ## The books agree in every run -/

theorem PaysIn.later {f : Funding} {d : Deposit} {a : VirtualAccount} (h : w.PaysIn f d a)
    (hw : Later w w') : ∃ d' a', w'.PaysIn f d' a' := by
  obtain ⟨d', hd', hl⟩ := hw.deposits h.stored
  obtain ⟨hset, hamount⟩ := hl.settled h.settled
  refine ⟨d', a, ?_, hset, ?_, ?_, h.account, ?_⟩
  · rw [hl.id_eq]; exact hd'
  · rw [hl.id_eq]; exact hw.byKey h.key
  · rw [hl.account_eq]; exact hw.accounts h.found
  · rw [hamount]; exact h.amount

/-- A change that moves no money leaves the books in agreement if each newly funded deposit has been
paid in. -/
theorem Paid.later (h : w.Paid) (hw : Later w w')
    (hf : w'.brokerage.fundings = w.brokerage.fundings)
    (hk : w'.brokerage.byKey = w.brokerage.byKey) (hids : w'.ids = w.ids)
    (hdrawn : w.drawn ≤ w'.drawn)
    (hfunded : ∀ ⦃id d⦄, w'.deposits.get? id = some d → d.status = .brokerFunded →
      ∃ ref, d.fundingRef = some ref ∧ w.brokerage.byKey.get? id.toText = some ref) : w'.Paid where
  funding f hmem := by
    rw [hf] at hmem
    obtain ⟨d, a, hpays⟩ := h.funding f hmem
    exact hpays.later hw
  distinct := by rw [hf]; exact h.distinct
  drawn f hmem := by
    rw [hf] at hmem
    obtain ⟨n, hn, href⟩ := h.drawn f hmem
    exact ⟨n, Nat.lt_of_lt_of_le hn hdrawn, by rw [hids]; exact href⟩
  known key ref hkey := by
    rw [hk] at hkey
    rw [hf]; exact h.known hkey
  keyed key key' ref hkey hkey' := by
    rw [hk] at hkey hkey'
    exact h.keyed hkey hkey'
  funded id d hd hst := by
    rw [hk]; exact hfunded hd hst

theorem Paid.apply (h : w.Paid) {cur d : Deposit} {e : Deposit.Event} {now : Instant}
    (hcur : w.deposits.get? cur.id = some cur) (ha : cur.apply e now = .ok d)
    (hb : w.Backs cur e) (hst : d.status = .brokerFunded) :
    ∃ ref, d.fundingRef = some ref ∧ w.brokerage.byKey.get? cur.id.toText = some ref := by
  obtain ⟨hal, rfl⟩ := Deposit.apply_eq_ok_iff.mp ha
  cases e with
  | brokerFunded ref => exact ⟨ref, rfl, hb⟩
  | usageRecorded =>
      obtain ⟨ref, href, hk⟩ := h.funded hcur hal
      exact ⟨ref, href, hk⟩
  | railInitiated t => cases hst
  | railCompleted amount => cases hst
  | failed reason => cases hst

theorem Paid.fresh (h : w.Paid) (hids : w'.ids = w.ids) (hdrawn : w'.drawn = w.drawn + 1)
    (hfresh : w'.FreshIds) {f : Funding} (hf : f ∈ w.brokerage.fundings) :
    f.reference ≠ Brokerage.Sandbox.referenceOf (w.ids w.drawn) := by
  intro heq
  obtain ⟨n, hn, href⟩ := h.drawn f hf
  rw [href] at heq
  have hid : w.ids n = w.ids w.drawn := Uuid.toCompact_inj (String.append_right_inj _ |>.mp heq)
  have := hfresh n (by omega) w.drawn (by omega) (by rw [hids]; exact hid)
  omega

theorem Paid.pay (h : w.Paid) (hw : Later w w') {d : Deposit} {a : VirtualAccount} {ref : String}
    (hd : w'.deposits.get? d.id = some d) (hset : d.Settled)
    (ha : w'.accounts.get? d.account = some a) (hdep : w'.deposits = w.deposits)
    (hids : w'.ids = w.ids) (hdrawn : w'.drawn = w.drawn + 1)
    (href : ref = Brokerage.Sandbox.referenceOf (w.ids w.drawn))
    (hnew : ∀ f ∈ w.brokerage.fundings, f.reference ≠ ref)
    (hfund : w'.brokerage.fundings =
      w.brokerage.fundings ++ [⟨ref, a.brokerageAccount, d.settledAmount⟩])
    (hby : w'.brokerage.byKey = w.brokerage.byKey.insert d.id.toText ref) : w'.Paid where
  funding f hf := by
    rw [hfund] at hf
    rcases List.mem_append.mp hf with hf | hf
    · obtain ⟨d, a, hpays⟩ := h.funding f hf
      exact hpays.later hw
    · obtain rfl := List.mem_singleton.mp hf
      refine ⟨d, a, hd, hset, ?_, ha, rfl, rfl⟩
      rw [hby, Table.get?_insert_self]
  distinct := by
    rw [hfund, List.map_append, List.map_singleton]
    refine List.nodup_append.mpr ⟨h.distinct, by simp, ?_⟩
    intro r hr r' hr'
    obtain ⟨f, hf, rfl⟩ := List.mem_map.mp hr
    obtain rfl := List.mem_singleton.mp hr'
    exact hnew f hf
  drawn f hf := by
    rw [hfund] at hf
    rw [hids, hdrawn]
    rcases List.mem_append.mp hf with hf | hf
    · obtain ⟨n, hn, hr⟩ := h.drawn f hf
      exact ⟨n, by omega, hr⟩
    · obtain rfl := List.mem_singleton.mp hf
      exact ⟨w.drawn, by omega, href⟩
  known key r hk := by
    rw [hby, Table.get?_insert] at hk
    rw [hfund]
    split at hk
    · cases hk
      exact ⟨_, List.mem_append_right _ (List.mem_singleton_self _), rfl⟩
    · obtain ⟨f, hf, hr⟩ := h.known hk
      exact ⟨f, List.mem_append_left _ hf, hr⟩
  keyed key key' r hk hk' := by
    rw [hby, Table.get?_insert] at hk hk'
    -- A reference of before is not the new one, so both keys are old or both are new.
    by_cases hkey : d.id.toText = key
    · by_cases hkey' : d.id.toText = key'
      · exact hkey.symm.trans hkey'
      · rw [if_pos hkey] at hk
        rw [if_neg hkey'] at hk'
        cases hk
        obtain ⟨f, hf, hr⟩ := h.known hk'
        exact absurd hr (hnew f hf)
    · rw [if_neg hkey] at hk
      by_cases hkey' : d.id.toText = key'
      · rw [if_pos hkey'] at hk'
        cases hk'
        obtain ⟨f, hf, hr⟩ := h.known hk
        exact absurd hr (hnew f hf)
      · rw [if_neg hkey'] at hk'
        exact h.keyed hk hk'
  funded id d' hd' hst := by
    rw [hdep] at hd'
    obtain ⟨r, hr, hk⟩ := h.funded hd' hst
    exact ⟨r, hr, hw.byKey hk⟩

theorem Paid.effect (h : w.Paid) (hs : w.Sound) (he : Effect w w') (hfresh : w'.FreshIds) :
    w'.Paid := by
  have hw := he.later hs
  cases he with
  | quiet hq =>
      refine h.later hw hq.fundings hq.byKey hq.ids hq.drawn ?_
      rw [hq.deposits]; exact h.funded
  | created hc =>
      refine h.later hw rfl rfl rfl (Nat.le_refl _) fun id d hd hst => ?_
      rw [Store.Deposits.get?_create hc] at hd
      split at hd
      · cases hd; cases hst
      · exact h.funded hd hst
  | @moved cur d e now _ hcur ha hb hu =>
      refine h.later hw rfl rfl rfl (Nat.le_refl _) fun id d' hd' hst => ?_
      rw [Store.Deposits.get?_update hu] at hd'
      split at hd'
      · rename_i hid
        cases hd'
        have hid' : d.id = cur.id := congrArg Deposit.Origin.id (Deposit.origin_of_apply ha)
        rw [← hid, hid']
        exact h.apply hcur ha hb hst
      · exact h.funded hd' hst
  | counted hd hf => exact h.later hw rfl rfl rfl (Nat.le_refl _) h.funded
  | paid hd hset ha hkey hq hdrawn hfund hby =>
      have hdep : w'.deposits = w.deposits := hq.deposits
      exact h.pay hw (by rw [hdep]; exact hd) hset (hq.accounts ha) hdep hq.ids hdrawn rfl
        (fun f hf => h.fresh hq.ids hdrawn hfresh hf) hfund hby

/-! ## What is read off the books -/

theorem Paid.length_fundingsOf (h : w.Paid) (id : Uuid) : (w.fundingsOf id).length ≤ 1 := by
  cases hk : w.brokerage.byKey.get? id.toText with
  | none =>
      have : w.fundingsOf id = [] := List.filter_eq_nil_iff.mpr fun f _ => by simp [hk]
      simp [this]
  | some ref =>
      have hsub : (w.fundingsOf id).map (·.reference) = List.replicate (w.fundingsOf id).length ref :=
        List.eq_replicate_iff.mpr ⟨by simp, fun r hr => by
          obtain ⟨f, hf, rfl⟩ := List.mem_map.mp hr
          have := (List.mem_filter.mp hf).2
          simpa [hk, eq_comm] using this⟩
      have hnodup : ((w.fundingsOf id).map (·.reference)).Nodup :=
        h.distinct.sublist (List.filter_sublist.map _)
      rw [hsub] at hnodup
      exact List.nodup_replicate.mp hnodup

theorem mem_fundingsOf {f : Funding} {id : Uuid} :
    f ∈ w.fundingsOf id ↔
      f ∈ w.brokerage.fundings ∧ w.brokerage.byKey.get? id.toText = some f.reference := by
  simp [fundingsOf]

theorem Paid.fundingsOf_funded (h : w.Paid) {id : Uuid} {d : Deposit}
    (hd : w.deposits.get? id = some d) (hst : d.status = .brokerFunded) :
    ∃ f, w.fundingsOf id = [f] ∧ d.fundingRef = some f.reference := by
  obtain ⟨ref, href, hk⟩ := h.funded hd hst
  obtain ⟨f, hf, rfl⟩ := h.known hk
  have hmem : f ∈ w.fundingsOf id := mem_fundingsOf.mpr ⟨hf, hk⟩
  have hlen := h.length_fundingsOf id
  cases hfs : w.fundingsOf id with
  | nil => rw [hfs] at hmem; cases hmem
  | cons g gs =>
      rw [hfs] at hmem hlen
      have hgs : gs = [] := List.length_eq_zero_iff.mp (by simpa using hlen)
      subst hgs
      obtain rfl := List.mem_singleton.mp hmem
      exact ⟨f, rfl, href⟩

theorem paid_of_empty (hf : w.brokerage.fundings = []) (hk : w.brokerage.byKey = .empty)
    (hd : w.deposits = {}) : w.Paid := by
  constructor <;> simp [hf, hk, hd, Store.Deposits.get?]

end Causeway.World

namespace Causeway.Crossing

variable {s : Settings} {σ : System} {w : World}

theorem Run.paid (hrun : Run s { world := w } σ) (hw : w.Sound) (hpaid : w.Paid)
    (hfresh : σ.world.FreshIds) : σ.world.Paid := by
  -- Identifiers that are fresh at the end have been fresh all along.
  refine hrun.invariant (I := fun w => w.FreshIds → w.Paid) (System.orderly_of_idle hw) ?_
    (fun _ => hpaid) hfresh
  intro w w' hs he ih hfresh
  exact (ih (he.freshIds hfresh)).effect hs he hfresh

/-- In every run from empty books, the brokerage has paid each deposit once at most, has paid nothing
but settled amounts of deposits that have come over the rail, each into its own account, and has paid
every deposit that is stored as funded, under the reference that is stored with it. -/
theorem money_moves_once (hd : w.deposits = {}) (hf : w.brokerage.fundings = [])
    (hk : w.brokerage.byKey = .empty) (hrace : w.script.race = none)
    (hrun : Run s { world := w } σ) (hfresh : σ.world.FreshIds) :
    (∀ id, (σ.world.fundingsOf id).length ≤ 1) ∧
      (∀ f ∈ σ.world.brokerage.fundings, ∃ d a, σ.world.deposits.get? d.id = some d ∧
        (d.status = .railCompleted ∨ d.status = .brokerFunded) ∧
        f ∈ σ.world.fundingsOf d.id ∧ (∀ id, f ∈ σ.world.fundingsOf id → id = d.id) ∧
        σ.world.accounts.get? d.account = some a ∧ f.account = a.brokerageAccount ∧
        f.amount = d.settledAmount) ∧
      ∀ id d, σ.world.deposits.get? id = some d → d.status = .brokerFunded →
        ∃ f, σ.world.fundingsOf id = [f] ∧ d.fundingRef = some f.reference := by
  have hw : w.Sound := ⟨by rw [hd]; exact Store.Deposits.Sound.empty, hrace⟩
  have hpaid := hrun.paid hw (World.paid_of_empty hf hk hd) hfresh
  refine ⟨hpaid.length_fundingsOf, ?_, fun id d => hpaid.fundingsOf_funded⟩
  intro f hf
  obtain ⟨d, a, hpays⟩ := hpaid.funding f hf
  have hmem : f ∈ σ.world.fundingsOf d.id := World.mem_fundingsOf.mpr ⟨hf, hpays.key⟩
  refine ⟨d, a, hpays.stored, hpays.settled, hmem, ?_, hpays.found, hpays.account, hpays.amount⟩
  intro id hid
  exact Uuid.toText_inj (hpaid.keyed (World.mem_fundingsOf.mp hid).2 hpays.key)

/-- A deposit that has gone all the way is stored as funded and has been paid once. -/
theorem sample_is_paid_once : ∃ d f,
    (Sample.paid .epoch).world.deposits.get? Sample.deposit = some d ∧ d.status = .brokerFunded ∧
      (Sample.paid .epoch).world.fundingsOf Sample.deposit = [f] ∧
      d.fundingRef = some f.reference := by
  have hfunded : ((Sample.paid .epoch).world.deposits.get? Sample.deposit).map (·.status) =
      some .brokerFunded := by decide
  have hfresh : (Sample.paid .epoch).world.FreshIds := by
    unfold World.FreshIds
    decide
  obtain ⟨d, hd, hst⟩ := Option.map_eq_some_iff.mp hfunded
  obtain ⟨f, hf, href⟩ := (money_moves_once (w := Sample.world .epoch) rfl rfl rfl rfl
    (Sample.run_paid .epoch) hfresh).2.2 _ d hd hst
  exact ⟨d, f, hd, hst, hf, href⟩

end Causeway.Crossing
