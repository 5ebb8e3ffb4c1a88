import Causeway.Proofs.Store.Deposits

/-!
# The indexes of the deposit store

Each index leads to a deposit exactly if the deposit has that reference or that transfer, so no two
deposits share one. Creations and updates of deposits keep it so.
-/

namespace Causeway.Store.Deposits

variable {s s' : Deposits} {d d' cur : Deposit} {expected : Deposit.Status} {id id' : Uuid}
  {transfer : String}

/-- The index of references leads to a deposit exactly if the deposit has the reference. -/
def Referenced (s : Deposits) : Prop :=
  ∀ r id, s.byReference.get? r = some id ↔ ∃ d, s.get? id = some d ∧ d.reference = r

structure Indexed (s : Deposits) : Prop where
  reference : ∀ r id, s.byReference.get? r = some id ↔ ∃ d, s.get? id = some d ∧ d.reference = r
  transfer : ∀ t id, s.byTransfer.get? t = some id ↔ ∃ d, s.get? id = some d ∧ d.transfer = some t

theorem Indexed.empty : Indexed {} := by
  constructor <;> simp [get?]

/-! ## What the indexes tell apart -/

theorem Referenced.inj (h : s.Referenced) (hd : s.get? id = some d) (hd' : s.get? id' = some d')
    (he : d.reference = d'.reference) : id = id' := by
  have hi := (h d.reference id).mpr ⟨d, hd, rfl⟩
  have hi' := (h d.reference id').mpr ⟨d', hd', he.symm⟩
  exact Option.some.inj (hi.symm.trans hi')

theorem Indexed.reference_inj (h : s.Indexed) (hd : s.get? id = some d) (hd' : s.get? id' = some d')
    (he : d.reference = d'.reference) : id = id' :=
  Referenced.inj h.reference hd hd' he

theorem Indexed.transfer_inj (h : s.Indexed) (hd : s.get? id = some d) (hd' : s.get? id' = some d')
    (ht : d.transfer = some transfer) (ht' : d'.transfer = some transfer) : id = id' := by
  have hi := (h.transfer transfer id).mpr ⟨d, hd, ht⟩
  have hi' := (h.transfer transfer id').mpr ⟨d', hd', ht'⟩
  exact Option.some.inj (hi.symm.trans hi')

theorem Indexed.getByTransfer?_eq_some_iff (h : s.Indexed) (hs : s.Sound) :
    s.getByTransfer? transfer = some d ↔ s.get? d.id = some d ∧ d.transfer = some transfer := by
  unfold getByTransfer?
  rw [Option.bind_eq_some_iff]
  constructor
  · rintro ⟨id, hlink, hd⟩
    obtain ⟨d', hd', ht⟩ := (h.transfer transfer id).mp hlink
    obtain rfl : d' = d := Option.some.inj (hd'.symm.trans hd)
    obtain rfl := hs.id_eq hd
    exact ⟨hd, ht⟩
  · rintro ⟨hd, ht⟩
    exact ⟨d.id, hs.linked hd ht, hd⟩

/-! ## Changes -/

theorem get?_linked (s : Deposits) (d : Deposit) (t : String) :
    (s.linked d).get? t = if d.transfer = some t then some d.id else s.byTransfer.get? t := by
  cases ht : d.transfer <;> simp [linked, ht]

theorem create_eq_ok_iff : (∃ s', s.create d = .ok s') ↔
    s.byReference.get? d.reference = none ∧ s.get? d.id = none := by
  unfold create Table.contains get?
  cases s.byReference.get? d.reference <;> cases s.byId.get? d.id <;> simp

/-- A reference is free exactly if no stored deposit has it. -/
theorem Referenced.eq_none_iff (h : s.Referenced) (r : String) :
    s.byReference.get? r = none ↔ ∀ id d, s.get? id = some d → d.reference ≠ r := by
  constructor
  · intro hnone id d hd href
    rw [(h r id).mpr ⟨d, hd, href⟩] at hnone
    cases hnone
  · intro hfree
    rw [Option.eq_none_iff_forall_ne_some]
    intro id hid
    obtain ⟨d, hd, href⟩ := (h r id).mp hid
    exact hfree id d hd href

/-- A deposit under a new id is stored, unless its reference is taken. -/
theorem Indexed.create_of_new (h : s.Indexed) (hnew : s.get? d.id = none) :
    (∃ id d', s.get? id = some d' ∧ d'.reference = d.reference) ∧
        s.create d = .error (.duplicateReference d.reference) ∨
      (∀ id d', s.get? id = some d' → d'.reference ≠ d.reference) ∧ ∃ s', s.create d = .ok s' := by
  cases hr : s.byReference.get? d.reference with
  | some id =>
      obtain ⟨d', hd', href⟩ := (h.reference _ _).mp hr
      exact .inl ⟨⟨id, d', hd', href⟩, by simp [Deposits.create, Table.contains, hr]⟩
  | none =>
      exact .inr ⟨(Referenced.eq_none_iff h.reference _).mp hr, create_eq_ok_iff.mpr ⟨hr, hnew⟩⟩

theorem Referenced.create (h : s.Referenced) (hc : s.create d = .ok s') : s'.Referenced := by
  obtain ⟨hfree, hnew⟩ := create_eq_ok_iff.mp ⟨s', hc⟩
  obtain ⟨-, hs'⟩ := create_eq_ok hc
  intro r id
  have hold := h r id
  rw [get?_create hc, hs', Table.get?_insert]
  by_cases hid : d.id = id
  · subst hid
    by_cases hr : d.reference = r
    · simp [hr]
    · simpa [hr, hnew] using hold
  · by_cases hr : d.reference = r
    · subst hr
      rw [hfree] at hold
      simpa [hid] using hold
    · rw [if_neg hid, if_neg hr, hold]

/-- An update leaves the index of references alone, and the deposit keeps its own. -/
theorem Referenced.update (h : s.Referenced) (hu : s.update d expected = .ok s') :
    s'.Referenced := by
  obtain ⟨cur, hcur, -, href, -, hs'⟩ := update_eq_ok hu
  intro r id
  have hold := h r id
  rw [get?_update hu, hs', hold]
  by_cases hid : d.id = id
  · subst hid
    simp [hcur, href]
  · rw [if_neg hid]

theorem Indexed.create (h : s.Indexed) (ht : d.transfer = none) (hc : s.create d = .ok s') :
    s'.Indexed := by
  obtain ⟨hnew, hs'⟩ := create_eq_ok hc
  constructor
  · exact Referenced.create h.reference hc
  · intro t id
    have hold := h.transfer t id
    rw [get?_create hc, hs', get?_linked, ht, if_neg (by simp), hold]
    by_cases hid : d.id = id
    · subst hid
      simp [hnew, ht]
    · rw [if_neg hid]

/-- An update keeps the indexes if the deposit keeps the transfer that it has. -/
theorem Indexed.update (h : s.Indexed) (hcur : s.get? d.id = some cur)
    (hkept : ∀ t, cur.transfer = some t → d.transfer = some t)
    (hu : s.update d expected = .ok s') : s'.Indexed := by
  obtain ⟨cur', hcur', -, -, -, hs'⟩ := update_eq_ok hu
  obtain rfl : cur' = cur := Option.some.inj (hcur'.symm.trans hcur)
  constructor
  · exact Referenced.update h.reference hu
  · intro t id
    have hold := h.transfer t id
    rw [get?_update hu, hs', get?_linked]
    by_cases hid : d.id = id
    · subst hid
      by_cases hdt : d.transfer = some t
      · simp [hdt]
      · have hnone : cur'.transfer ≠ some t := fun hc => hdt (hkept t hc)
        simpa [hdt, hcur, hnone] using hold
    · by_cases hdt : d.transfer = some t
      · -- The transfer is the deposit's own, so it leads to no other deposit.
        have hother : s.byTransfer.get? t ≠ some id := fun hlink =>
          hid (owner_of_update hu hdt hlink).symm
        simpa [hdt, hid, hother] using hold
      · rw [if_neg hid, if_neg hdt, hold]

end Causeway.Store.Deposits
