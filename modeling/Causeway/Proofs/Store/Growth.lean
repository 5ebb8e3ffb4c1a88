import Causeway.Proofs.Deposit.Moves
import Causeway.Proofs.Store.Index

/-!
# A store that grows by one deposit

`put` is a store with one deposit more, or with that deposit at another stage. A creation under new
keys puts the deposit in, and an update that follows it puts in the deposit that it has become, so
what a deposit has gone through on its way does not show in the store (`create_of_free`,
`update_put`).
-/

namespace Causeway.Store.Deposits

variable {s : Deposits} {d d' : Deposit} {e : Deposit.Event} {now : Instant} {id : Uuid}

def put (s : Deposits) (d : Deposit) : Deposits :=
  ⟨s.byId.insert d.id d, s.byReference.insert d.reference d.id, s.linked d⟩

/-- The id and the reference of the deposit, and its transfer if it has one, are new to the store. -/
structure Free (s : Deposits) (d : Deposit) : Prop where
  id : s.get? d.id = none
  reference : s.byReference.get? d.reference = none
  transfer : ∀ t, d.transfer = some t → s.byTransfer.get? t = none

theorem get?_put : (s.put d).get? id = if d.id = id then some d else s.get? id :=
  Table.get?_insert s.byId d.id id d

theorem get?_put_self (s : Deposits) (d : Deposit) : (s.put d).get? d.id = some d := by
  rw [get?_put, if_pos rfl]

theorem create_of_free (h : s.Free d) : s.create d = .ok (s.put d) := by
  have hid : s.byId.get? d.id = none := h.id
  simp [create, put, Table.contains, h.reference, hid]

theorem getByTransfer?_put {t : String} (h : d.transfer = some t) :
    (s.put d).getByTransfer? t = some d := by
  simp [getByTransfer?, put, linked, h]

theorem linked_put (hid : d'.id = d.id)
    (hkept : ∀ t, d.transfer = some t → d'.transfer = some t) :
    (s.put d).linked d' = s.linked d' := by
  cases ht : d.transfer with
  | none => simp [put, linked, ht]
  | some t => simp [put, linked, ht, hkept t ht, hid, Table.insert_insert]

/-- The deposit is taken from one stage to another, and the store does not remember the first. -/
theorem update_put (hid : d'.id = d.id) (href : d'.reference = d.reference)
    (hkept : ∀ t, d.transfer = some t → d'.transfer = some t)
    (hfree : ∀ t, d'.transfer = some t → s.byTransfer.get? t = none) :
    (s.put d).update d' d.status = .ok (s.put d') := by
  have hcur : (s.put d).get? d'.id = some d := by rw [hid, get?_put_self]
  have hown : (s.put d).otherOwner? d' = none := by
    cases ht' : d'.transfer with
    | none => simp [otherOwner?, ht']
    | some t =>
        have hlink : (s.put d).byTransfer.get? t =
            if d.transfer = some t then some d.id else none := by
          rw [put, get?_linked, hfree t ht']
        by_cases ht : d.transfer = some t <;> simp [otherOwner?, ht', hlink, ht, hid]
  rw [update_of_unowned hcur href hown, linked_put hid hkept]
  simp [put, hid, href, Table.insert_insert]

/-! ## Events -/

/-- A transfer that the event links the deposit to is its first, and new to the store. -/
def LinksNew (s : Deposits) (d : Deposit) (e : Deposit.Event) : Prop :=
  ∀ t, e = .railInitiated t → d.transfer = none ∧ s.byTransfer.get? t = none

theorem Free.after (h : s.Free d) (he : s.LinksNew d e) : s.Free (d.after e now) := by
  cases e with
  | railInitiated t =>
      refine ⟨h.id, h.reference, fun t' ht' => ?_⟩
      cases ht'
      exact (he t rfl).2
  | _ => exact ⟨h.id, h.reference, h.transfer⟩

theorem update_after (h : s.Free d) (he : s.LinksNew d e) :
    (s.put d).update (d.after e now) d.status = .ok (s.put (d.after e now)) := by
  have horigin := d.origin_after e now
  refine update_put (congrArg Deposit.Origin.id horigin)
    (congrArg Deposit.Origin.reference horigin) (fun t ht => ?_) (h.after he).transfer
  cases e with
  | railInitiated t' => simp [(he t' rfl).1] at ht
  | _ => exact ht

/-! ## What a store that grows keeps -/

theorem values_put (h : s.get? d.id = none) : (s.put d).byId.values = s.byId.values ++ [d] :=
  Table.values_insert_of_new h d

theorem Sound.put (h : s.Sound) (hd : s.Free d) (hc : d.Coherent) : (s.put d).Sound := by
  refine ⟨Table.nodup_keys_insert h.distinct _ _, ?_, ?_, ?_⟩
  · intro id d' hd'
    rw [get?_put] at hd'
    split at hd'
    · cases hd'; assumption
    · exact h.id_eq hd'
  · intro id d' hd'
    rw [get?_put] at hd'
    split at hd'
    · cases hd'; exact hc
    · exact h.coherent hd'
  · intro id d' t hd' ht
    have hlink : (s.put d).byTransfer.get? t =
        if d.transfer = some t then some d.id else s.byTransfer.get? t := get?_linked s d t
    rw [hlink]
    rw [get?_put] at hd'
    split at hd'
    · rename_i hid
      cases hd'
      rw [if_pos ht, hid]
    · have hold := h.linked hd' ht
      rw [if_neg, hold]
      intro htd
      rw [hd.transfer t htd] at hold
      cases hold

theorem Indexed.put (h : s.Indexed) (hd : s.Free d) : (s.put d).Indexed := by
  have hnew := hd.id
  constructor
  · intro r id
    have hold := h.reference r id
    have href := hd.reference
    have hput : (s.put d).byReference.get? r =
        if d.reference = r then some d.id else s.byReference.get? r := Table.get?_insert ..
    rw [get?_put, hput]
    by_cases hid : d.id = id
    · subst hid
      by_cases hr : d.reference = r
      · simp [hr]
      · simpa [hr, hnew] using hold
    · by_cases hr : d.reference = r
      · subst hr
        rw [href] at hold
        simpa [hid] using hold
      · rw [if_neg hid, if_neg hr, hold]
  · intro t id
    have hold := h.transfer t id
    have hput : (s.put d).byTransfer.get? t =
        if d.transfer = some t then some d.id else s.byTransfer.get? t := get?_linked s d t
    rw [get?_put, hput]
    by_cases hid : d.id = id
    · subst hid
      by_cases ht : d.transfer = some t
      · simp [ht]
      · simpa [ht, hnew] using hold
    · by_cases ht : d.transfer = some t
      · rw [hd.transfer t ht] at hold
        simpa [hid, ht] using hold
      · rw [if_neg hid, if_neg ht, hold]

end Causeway.Store.Deposits
