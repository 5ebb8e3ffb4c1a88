import Causeway.Proofs.Crossing.Idle
import Causeway.Proofs.Quota.Gate
import Causeway.Proofs.Rail.Sandbox
import Causeway.Proofs.Uuid
import Causeway.Replay.Basic

/-!
# Worlds between two rows

Between two rows of a replay the world is steady: all deposits are at rest, and every name that the
books know was drawn from the source of identifiers or belongs to a stored deposit. So what is drawn
next is new to all of them. `Placed` is what a row that places a deposit does to the world, and such
a world is steady again (`Steady.placed`).
-/

namespace Causeway

namespace World

variable {w w' : World} {id : Uuid} {k n : Nat}

/-- The identifier was drawn. -/
def Drawn (w : World) (id : Uuid) : Prop := ∃ n < w.drawn, id = w.ids n

/-- Among what was drawn and the next `k` identifiers none comes twice. -/
def FreshFor (w : World) (k : Nat) : Prop :=
  ∀ i < w.drawn + k, ∀ j < w.drawn + k, w.ids i = w.ids j → i = j

theorem Drawn.mono (h : w.Drawn id) (hids : w'.ids = w.ids) (hdrawn : w.drawn ≤ w'.drawn) :
    w'.Drawn id := by
  obtain ⟨n, hn, rfl⟩ := h
  exact ⟨n, by omega, by rw [hids]⟩

theorem FreshFor.mono (h : w.FreshFor k) (hids : w'.ids = w.ids)
    (hle : w'.drawn + n ≤ w.drawn + k) : w'.FreshFor n := by
  intro i hi j hj hij
  rw [hids] at hij
  exact h i (by omega) j (by omega) hij

theorem FreshFor.not_drawn (h : w.FreshFor k) (hn : n < k) : ¬ w.Drawn (w.ids (w.drawn + n)) := by
  rintro ⟨i, hi, hid⟩
  have := h (w.drawn + n) (by omega) i (by omega) hid
  omega

end World

namespace Replay

open Crossing (AtRest Pending)
open Rail (Transfer)

variable {s : Settings} {w w' : World} {d : Deposit} {row : Instruction} {k : Nat}

structure Steady (s : Settings) (w : World) : Prop where
  plain : w.Plain
  unclaimed : w.claims = []
  feeRate : w.rail.feeRate = s.provider.feeRate
  sound : w.deposits.Sound
  indexed : w.deposits.Indexed
  rest : ∀ id d, w.deposits.get? id = some d → AtRest w d
  deposits : ∀ id d, w.deposits.get? id = some d → w.Drawn id
  links : ∀ id d t, w.deposits.get? id = some d → d.transfer = some t →
    ∃ u, w.Drawn u ∧ t = Rail.Sandbox.idOf u
  transfers : ∀ t ∈ w.rail.transfers, (∃ u, w.Drawn u ∧ t.id = Rail.Sandbox.idOf u) ∧
    ∃ id d, w.deposits.get? id = some d ∧ d.reference = t.reference
  paid : ∀ key ref, w.brokerage.byKey.get? key = some ref →
    ∃ id d, w.deposits.get? id = some d ∧ key = id.toText
  applied : ∀ id ∈ w.usages.applied, ∃ d, w.deposits.get? id = some d
  accounts : ∀ id a, w.accounts.get? id = some a → a.id = id ∧ w.Drawn id
  named : w.accounts.keys.Nodup

theorem idOf_inj {u v : Uuid} (h : Rail.Sandbox.idOf u = Rail.Sandbox.idOf v) : u = v :=
  Uuid.toCompact_inj (String.append_right_inj _ |>.mp h)

theorem idOf_ne_empty (u : Uuid) : Rail.Sandbox.idOf u ≠ "" := by
  simp [Rail.Sandbox.idOf]

/-! ## What is new -/

namespace Steady

theorem deposit_new (h : Steady s w) {u : Uuid} (hu : ¬ w.Drawn u) : w.deposits.get? u = none := by
  cases hd : w.deposits.get? u with
  | none => rfl
  | some d => exact absurd (h.deposits u d hd) hu

theorem link_new (h : Steady s w) {u : Uuid} (hu : ¬ w.Drawn u) :
    w.deposits.byTransfer.get? (Rail.Sandbox.idOf u) = none := by
  cases ht : w.deposits.byTransfer.get? (Rail.Sandbox.idOf u) with
  | none => rfl
  | some id =>
      obtain ⟨d, hd, hdt⟩ := (h.indexed.transfer _ id).mp ht
      obtain ⟨v, hv, hid⟩ := h.links id d _ hd hdt
      rw [← idOf_inj hid] at hv
      exact absurd hv hu

theorem transfer_new (h : Steady s w) {u : Uuid} (hu : ¬ w.Drawn u) :
    ∀ t ∈ w.rail.transfers, t.id ≠ Rail.Sandbox.idOf u := by
  intro t ht hid
  obtain ⟨⟨v, hv, hv'⟩, -⟩ := h.transfers t ht
  rw [hid] at hv'
  rw [← idOf_inj hv'] at hv
  exact hu hv

theorem key_new (h : Steady s w) {u : Uuid} (hu : ¬ w.Drawn u) :
    w.brokerage.byKey.get? u.toText = none := by
  cases hk : w.brokerage.byKey.get? u.toText with
  | none => rfl
  | some ref =>
      obtain ⟨id, d, hd, hid⟩ := h.paid _ ref hk
      rw [← Uuid.toText_inj hid] at hd
      exact absurd (h.deposits u d hd) hu

theorem applied_new (h : Steady s w) {u : Uuid} (hu : ¬ w.Drawn u) : u ∉ w.usages.applied := by
  intro hmem
  obtain ⟨d, hd⟩ := h.applied u hmem
  exact hu (h.deposits u d hd)

theorem account_new (h : Steady s w) {u : Uuid} (hu : ¬ w.Drawn u) : w.accounts.get? u = none := by
  cases ha : w.accounts.get? u with
  | none => rfl
  | some a => exact absurd (h.accounts u a ha).2 hu

/-- A reference that no stored deposit has is known neither to the store nor to the rail. -/
theorem reference_new (h : Steady s w) {reference : String}
    (hnew : ¬ w.deposits.byReference.contains reference) :
    w.deposits.byReference.get? reference = none ∧ w.rail.findReference? reference = none := by
  have hnone : w.deposits.byReference.get? reference = none := by
    simpa [Table.contains] using hnew
  refine ⟨hnone, List.find?_eq_none.mpr fun t ht => ?_⟩
  obtain ⟨-, id, d, hd, href⟩ := h.transfers t ht
  intro heq
  have hindex := (h.indexed.reference _ id).mpr ⟨d, hd, rfl⟩
  rw [href, show t.reference = reference by simpa using heq, hnone] at hindex
  cases hindex

end Steady

/-! ## What stays steady -/

/-- Nothing that is stored, ordered, paid or applied has changed, though counters may have been
looked at and identifiers drawn. -/
structure Kept (w w' : World) : Prop where
  plain : w.Plain → w'.Plain
  claims : w'.claims = w.claims
  rail : w'.rail = w.rail
  byKey : w'.brokerage.byKey = w.brokerage.byKey
  deposits : w'.deposits = w.deposits
  applied : w'.usages.applied = w.usages.applied
  ids : w'.ids = w.ids
  drawn : w.drawn ≤ w'.drawn

theorem Steady.kept (h : Steady s w) (hw : Kept w w')
    (haccounts : ∀ id a, w'.accounts.get? id = some a → a.id = id ∧ w'.Drawn id)
    (hnamed : w'.accounts.keys.Nodup) : Steady s w' where
  plain := hw.plain h.plain
  unclaimed := hw.claims.trans h.unclaimed
  feeRate := by rw [hw.rail]; exact h.feeRate
  sound := by rw [hw.deposits]; exact h.sound
  indexed := by rw [hw.deposits]; exact h.indexed
  rest id d hd := by
    rw [hw.deposits] at hd
    cases h.rest id d hd with
    | failed hst => exact .failed hst
    | counted hst hcount => exact .counted hst hcount
    | waiting t hst ht hpending =>
        refine .waiting t hst ht ?_
        unfold Pending
        rw [hw.rail]
        exact hpending
  deposits id d hd := by
    rw [hw.deposits] at hd
    exact (h.deposits id d hd).mono hw.ids hw.drawn
  links id d t hd ht := by
    rw [hw.deposits] at hd
    obtain ⟨u, hu, ht⟩ := h.links id d t hd ht
    exact ⟨u, hu.mono hw.ids hw.drawn, ht⟩
  transfers t ht := by
    rw [hw.rail] at ht
    obtain ⟨⟨u, hu, hid⟩, hstored⟩ := h.transfers t ht
    rw [hw.deposits]
    exact ⟨⟨u, hu.mono hw.ids hw.drawn, hid⟩, hstored⟩
  paid key ref hk := by
    rw [hw.byKey] at hk
    rw [hw.deposits]
    exact h.paid key ref hk
  applied id hid := by
    rw [hw.applied] at hid
    rw [hw.deposits]
    exact h.applied id hid
  accounts := haccounts
  named := hnamed

theorem Steady.kept_accounts (h : Steady s w) (hw : Kept w w') (ha : w'.accounts = w.accounts) :
    Steady s w' := by
  refine h.kept hw (fun id a hid => ?_) (by rw [ha]; exact h.named)
  rw [ha] at hid
  obtain ⟨haid, hdrawn⟩ := h.accounts id a hid
  exact ⟨haid, hdrawn.mono hw.ids hw.drawn⟩

/-- What is left by the placing of a deposit: the deposit, new to the store and at rest, and entries
under its own names in the books of the rail, the brokerage and the counters. -/
structure Placed (w w' : World) (d : Deposit) : Prop where
  plain : w'.Plain
  claims : w'.claims = w.claims
  feeRate : w'.rail.feeRate = w.rail.feeRate
  accounts : w'.accounts = w.accounts
  users : w'.users = w.users
  ids : w'.ids = w.ids
  drawn : w.drawn < w'.drawn
  id_eq : d.id = w.ids w.drawn
  free : w.deposits.Free d
  coherent : d.Coherent
  deposits : w'.deposits = w.deposits.put d
  rest : AtRest w' d
  links : ∀ t, d.transfer = some t →
    w.drawn + 1 < w'.drawn ∧ t = Rail.Sandbox.idOf (w.ids (w.drawn + 1))
  transfers : w'.rail.transfers = w.rail.transfers ∨
    ∃ t, w'.rail.transfers = w.rail.transfers ++ [t] ∧ w.drawn + 1 < w'.drawn ∧
      t.id = Rail.Sandbox.idOf (w.ids (w.drawn + 1)) ∧ t.reference = d.reference
  keys : w'.brokerage.byKey = w.brokerage.byKey ∨
    ∃ ref, w'.brokerage.byKey = w.brokerage.byKey.insert d.id.toText ref
  applied : w'.usages.applied = w.usages.applied ∨
    w'.usages.applied = w.usages.applied ++ [d.id]

theorem Placed.stored (hw : Placed w w' d) {id : Uuid} {d' : Deposit}
    (hd : w'.deposits.get? id = some d') :
    id = d.id ∧ d' = d ∨ id ≠ d.id ∧ w.deposits.get? id = some d' := by
  rw [hw.deposits, Store.Deposits.get?_put] at hd
  split at hd
  · rename_i hid
    cases hd
    exact .inl ⟨hid.symm, rfl⟩
  · rename_i hid
    exact .inr ⟨fun h => hid h.symm, hd⟩

theorem Placed.still (hw : Placed w w' d) {id : Uuid} {d' : Deposit}
    (hd : w.deposits.get? id = some d') : w'.deposits.get? id = some d' := by
  rw [hw.deposits, Store.Deposits.get?_put, if_neg]
  · exact hd
  · rintro rfl
    rw [hw.free.id] at hd
    cases hd

theorem Placed.self (hw : Placed w w' d) : w'.deposits.get? d.id = some d := by
  rw [hw.deposits, Store.Deposits.get?_put_self]

theorem Placed.transfer (hw : Placed w w' d) {t : Transfer} (ht : t ∈ w'.rail.transfers) :
    t ∈ w.rail.transfers ∨ w.drawn + 1 < w'.drawn ∧
      t.id = Rail.Sandbox.idOf (w.ids (w.drawn + 1)) ∧ t.reference = d.reference := by
  rcases hw.transfers with hsame | ⟨t', hnew, hdrawn, hid, href⟩
  · rw [hsame] at ht
    exact .inl ht
  · rw [hnew] at ht
    rcases List.mem_append.mp ht with ht | ht
    · exact .inl ht
    · obtain rfl := List.mem_singleton.mp ht
      exact .inr ⟨hdrawn, hid, href⟩

theorem Placed.key (hw : Placed w w' d) {key ref : String}
    (hk : w'.brokerage.byKey.get? key = some ref) :
    w.brokerage.byKey.get? key = some ref ∨ key = d.id.toText := by
  rcases hw.keys with hsame | ⟨ref', hnew⟩
  · rw [hsame] at hk
    exact .inl hk
  · rw [hnew, Table.get?_insert] at hk
    split at hk
    · rename_i hid
      exact .inr hid.symm
    · exact .inl hk

theorem Placed.mem_applied (hw : Placed w w' d) {id : Uuid} (hid : id ∈ w'.usages.applied) :
    id ∈ w.usages.applied ∨ id = d.id := by
  rcases hw.applied with hsame | hnew
  · rw [hsame] at hid
    exact .inl hid
  · rw [hnew] at hid
    exact (List.mem_append.mp hid).imp_right List.mem_singleton.mp

/-- What was at rest stays so: the transfer that has been added is no stored deposit's. -/
theorem Steady.rest_placed (h : Steady s w) (hfresh : w.FreshFor 2) (hw : Placed w w' d)
    {id : Uuid} {d' : Deposit} (hd : w.deposits.get? id = some d') : AtRest w' d' := by
  cases h.rest id d' hd with
  | failed hst => exact .failed hst
  | counted hst hcount => exact .counted hst hcount
  | waiting t hst ht hpending =>
      refine .waiting t hst ht fun x hx hid => ?_
      rcases hw.transfer hx with hx | ⟨-, hid', -⟩
      · exact hpending x hx hid
      · obtain ⟨u, hu, htu⟩ := h.links id d' t hd ht
        rw [← hid, hid'] at htu
        rw [← idOf_inj htu] at hu
        exact absurd hu (hfresh.not_drawn (by decide))

theorem Steady.placed (h : Steady s w) (hfresh : w.FreshFor 2) (hw : Placed w w' d) :
    Steady s w' where
  plain := hw.plain
  unclaimed := hw.claims.trans h.unclaimed
  feeRate := hw.feeRate.trans h.feeRate
  sound := by rw [hw.deposits]; exact h.sound.put hw.free hw.coherent
  indexed := by rw [hw.deposits]; exact h.indexed.put hw.free
  rest id d' hd := by
    rcases hw.stored hd with ⟨-, rfl⟩ | ⟨-, hd⟩
    · exact hw.rest
    · exact h.rest_placed hfresh hw hd
  deposits id d' hd := by
    rcases hw.stored hd with ⟨rfl, rfl⟩ | ⟨-, hd⟩
    · exact ⟨w.drawn, hw.drawn, by rw [hw.ids, hw.id_eq]⟩
    · exact (h.deposits id d' hd).mono hw.ids hw.drawn.le
  links id d' t hd ht := by
    rcases hw.stored hd with ⟨-, rfl⟩ | ⟨-, hd⟩
    · obtain ⟨hdrawn, rfl⟩ := hw.links t ht
      exact ⟨_, ⟨w.drawn + 1, hdrawn, by rw [hw.ids]⟩, rfl⟩
    · obtain ⟨u, hu, ht⟩ := h.links id d' t hd ht
      exact ⟨u, hu.mono hw.ids hw.drawn.le, ht⟩
  transfers t ht := by
    rcases hw.transfer ht with ht | ⟨hdrawn, hid, href⟩
    · obtain ⟨⟨u, hu, hid⟩, id, d', hd', href⟩ := h.transfers t ht
      exact ⟨⟨u, hu.mono hw.ids hw.drawn.le, hid⟩, id, d', hw.still hd', href⟩
    · exact ⟨⟨_, ⟨w.drawn + 1, hdrawn, by rw [hw.ids]⟩, hid⟩, d.id, d, hw.self, href.symm⟩
  paid key ref hk := by
    rcases hw.key hk with hk | rfl
    · obtain ⟨id, d', hd', hid⟩ := h.paid key ref hk
      exact ⟨id, d', hw.still hd', hid⟩
    · exact ⟨d.id, d, hw.self, rfl⟩
  applied id hid := by
    rcases hw.mem_applied hid with hid | rfl
    · obtain ⟨d', hd'⟩ := h.applied id hid
      exact ⟨d', hw.still hd'⟩
    · exact ⟨d, hw.self⟩
  accounts id a hid := by
    rw [hw.accounts] at hid
    obtain ⟨haid, hdrawn⟩ := h.accounts id a hid
    exact ⟨haid, hdrawn.mono hw.ids hw.drawn.le⟩
  named := by rw [hw.accounts]; exact h.named

end Replay

end Causeway
