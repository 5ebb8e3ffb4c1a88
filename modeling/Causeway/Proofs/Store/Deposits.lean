import Causeway.Proofs.Deposit.Coherence
import Causeway.Store.Deposits

/-!
# Changes of the deposit store

A sound store keeps coherent deposits under their own ids and knows the transfer of each. An update
compares the stage that its writer saw with the stored one; where the two agree, the event that the
writer applied to a copy is the same event applied to the stored deposit (`update_moves`).
-/

namespace Causeway.Store.Deposits

variable {s s' : Deposits} {d d₀ cur : Deposit} {expected : Deposit.Status} {id : Uuid}

structure Sound (s : Deposits) : Prop where
  distinct : s.byId.keys.Nodup
  id_eq : ∀ ⦃id d⦄, s.get? id = some d → d.id = id
  coherent : ∀ ⦃id d⦄, s.get? id = some d → d.Coherent
  linked : ∀ ⦃id d t⦄, s.get? id = some d → d.transfer = some t → s.byTransfer.get? t = some id

/-- Each deposit is kept once and under its own id. -/
structure Keyed (s : Deposits) : Prop where
  distinct : s.byId.keys.Nodup
  id_eq : ∀ ⦃id d⦄, s.get? id = some d → d.id = id

theorem Sound.keyed (h : s.Sound) : s.Keyed := ⟨h.distinct, h.id_eq⟩

theorem Sound.empty : Sound {} := by
  constructor <;> simp [Table.keys, Table.empty, get?, Table.get?, Table.lookup]

/-- Each stored deposit stays or has moved on by one change. -/
def Advances (s s' : Deposits) : Prop :=
  ∀ ⦃id d⦄, s.get? id = some d → ∃ d', s'.get? id = some d' ∧ (d' = d ∨ d.Moves d')

theorem Advances.refl (s : Deposits) : s.Advances s := fun _ d h => ⟨d, h, Or.inl rfl⟩

theorem insertByCreation_perm (d : Deposit) (ds : List Deposit) :
    (insertByCreation d ds).Perm (d :: ds) := by
  induction ds with
  | nil => exact .refl _
  | cons e es ih =>
      unfold insertByCreation
      split
      · exact .refl _
      · exact (ih.cons e).trans (.swap d e es)

theorem byCreation_perm (ds : List Deposit) : (byCreation ds).Perm ds := by
  induction ds with
  | nil => exact .refl _
  | cons d ds ih => exact (insertByCreation_perm d _).trans (ih.cons d)

theorem Keyed.mem_withStatus (hs : s.Keyed) {status : Deposit.Status} :
    d ∈ s.withStatus status ↔ s.get? d.id = some d ∧ d.status = status := by
  simp only [withStatus, (byCreation_perm _).mem_iff, List.mem_filter, decide_eq_true_eq,
    Table.mem_values_iff hs.distinct]
  constructor
  · rintro ⟨⟨id, h⟩, hst⟩
    obtain rfl := hs.id_eq h
    exact ⟨h, hst⟩
  · rintro ⟨h, hst⟩
    exact ⟨⟨_, h⟩, hst⟩

theorem mem_withStatus (hs : s.Sound) {status : Deposit.Status} :
    d ∈ s.withStatus status ↔ s.get? d.id = some d ∧ d.status = status :=
  hs.keyed.mem_withStatus

theorem map_id_values (hs : s.Sound) : s.byId.values.map (·.id) = s.byId.keys := by
  simp only [Table.values, Table.keys, List.map_map]
  refine List.map_congr_left fun e he => ?_
  exact hs.id_eq ((Table.mem_entries_iff hs.distinct).mp he)

theorem nodup_withStatus (hs : s.Sound) (status : Deposit.Status) :
    ((s.withStatus status).map (·.id)).Nodup := by
  rw [withStatus, ((byCreation_perm _).map _).nodup_iff]
  refine (List.filter_sublist.map _).nodup ?_
  rw [map_id_values hs]
  exact hs.distinct

/-! ## Creation -/

theorem create_eq_ok (h : s.create d = .ok s') :
    s.get? d.id = none ∧
      s' = ⟨s.byId.insert d.id d, s.byReference.insert d.reference d.id, s.linked d⟩ := by
  unfold create at h
  split at h
  · cases h
  · split at h
    · cases h
    · rename_i hid
      cases h
      exact ⟨by simpa [Table.contains, get?] using hid, rfl⟩

theorem get?_create (h : s.create d = .ok s') :
    s'.get? id = if d.id = id then some d else s.get? id := by
  rw [(create_eq_ok h).2]
  exact Table.get?_insert _ _ _ _

theorem create_sound (hs : s.Sound) (hc : d.Coherent) (ht : d.transfer = none)
    (h : s.create d = .ok s') : s'.Sound ∧ s.Advances s' := by
  obtain ⟨hnew, rfl⟩ := create_eq_ok h
  refine ⟨⟨Table.nodup_keys_insert hs.distinct _ _, ?_, ?_, ?_⟩, ?_⟩
  · intro id d' hd
    rw [get?_create h] at hd
    split at hd
    · cases hd; assumption
    · exact hs.id_eq hd
  · intro id d' hd
    rw [get?_create h] at hd
    split at hd
    · cases hd; exact hc
    · exact hs.coherent hd
  · intro id d' t hd hdt
    rw [get?_create h] at hd
    split at hd
    · cases hd; rw [ht] at hdt; cases hdt
    · simpa only [linked, ht] using hs.linked hd hdt
  · intro id d' hd
    refine ⟨d', ?_, Or.inl rfl⟩
    rw [get?_create h, if_neg]
    · exact hd
    · rintro rfl
      rw [hnew] at hd; cases hd

/-! ## Updates -/

theorem update_eq_ok (h : s.update d expected = .ok s') :
    ∃ cur, s.get? d.id = some cur ∧ cur.status = expected ∧ cur.reference = d.reference ∧
      s.otherOwner? d = none ∧
      s' = { s with byId := s.byId.insert d.id d, byTransfer := s.linked d } := by
  unfold update at h
  split at h
  · cases h
  · rename_i cur hcur
    by_cases hst : cur.status = expected
    · by_cases href : cur.reference = d.reference
      · simp only [hst, href, ne_eq, not_true_eq_false, if_false] at h
        split at h
        · cases h
        · rename_i hown
          cases h
          exact ⟨cur, hcur, hst, href, hown, rfl⟩
      · simp [hst, href] at h
    · simp [hst] at h

theorem get?_update (h : s.update d expected = .ok s') :
    s'.get? id = if d.id = id then some d else s.get? id := by
  obtain ⟨_, _, _, _, _, rfl⟩ := update_eq_ok h
  exact Table.get?_insert _ _ _ _

theorem get?_update_self (h : s.update d expected = .ok s') : s'.get? d.id = some d := by
  rw [get?_update h, if_pos rfl]

theorem Keyed.insert (hs : s.Keyed) (hbyId : s'.byId = s.byId.insert d.id d) : s'.Keyed := by
  refine ⟨by rw [hbyId]; exact Table.nodup_keys_insert hs.distinct _ _, fun id e he => ?_⟩
  unfold get? at he
  rw [hbyId, Table.get?_insert] at he
  split at he
  · cases he
    assumption
  · exact hs.id_eq he

theorem Keyed.create (hs : s.Keyed) (h : s.create d = .ok s') : s'.Keyed := by
  obtain ⟨-, rfl⟩ := create_eq_ok h
  exact hs.insert rfl

theorem Keyed.update (hs : s.Keyed) (h : s.update d expected = .ok s') : s'.Keyed := by
  obtain ⟨_, _, _, _, _, rfl⟩ := update_eq_ok h
  exact hs.insert rfl

theorem owner_of_update {t : String} (h : s.update d expected = .ok s') (ht : d.transfer = some t)
    {owner : Uuid} (ho : s.byTransfer.get? t = some owner) : owner = d.id := by
  obtain ⟨_, _, _, _, hown, _⟩ := update_eq_ok h
  simpa [otherOwner?, ht, ho] using hown

theorem byTransfer_update {t : String} (h : s.update d expected = .ok s') (hne : d.id ≠ id)
    (hlink : s.byTransfer.get? t = some id) : s'.byTransfer.get? t = some id := by
  obtain ⟨_, _, _, _, _, hs'⟩ := update_eq_ok h
  rw [hs']
  cases ht : d.transfer with
  | none => simpa [linked, ht] using hlink
  | some t' =>
      have hother : t' ≠ t := by
        rintro rfl
        exact hne (owner_of_update h ht hlink).symm
      simpa [linked, ht, hother] using hlink

/-- A writer that saw `d₀` moves the stored deposit as it meant to move its copy. -/
theorem update_moves {e : Deposit.Event} {now : Instant} (hs : s.Sound)
    (hcur : s.get? d₀.id = some cur) (hl : d₀.Leads cur) (ha : d₀.apply e now = .ok d)
    (hf : d₀.status = .railCompleted → ∀ reason, e ≠ .failed reason)
    (h : s.update d d₀.status = .ok s') :
    s.get? d.id = some cur ∧ cur.apply e now = .ok d ∧ cur.Moves d ∧ s'.Sound ∧ s.Advances s' := by
  have hid : d.id = d₀.id := congrArg Deposit.Origin.id (Deposit.origin_of_apply ha)
  obtain ⟨cur', hcur', hst, _, _, hs'⟩ := update_eq_ok h
  obtain rfl : cur' = cur := by rw [hid, hcur] at hcur'; cases hcur'; rfl
  have hca : cur'.apply e now = .ok d := hl.apply_eq hst ha
  have hm : cur'.Moves d := ⟨e, now, hca, by rw [hst]; exact hf⟩
  refine ⟨hcur', hca, hm, ⟨?_, ?_, ?_, ?_⟩, ?_⟩
  · rw [hs']; exact Table.nodup_keys_insert hs.distinct _ _
  · intro id d' hd
    rw [get?_update h] at hd
    split at hd
    · cases hd; assumption
    · exact hs.id_eq hd
  · intro id d' hd
    rw [get?_update h] at hd
    split at hd
    · cases hd; exact (hs.coherent hcur').apply hca
    · exact hs.coherent hd
  · intro id d' t hd hdt
    rw [get?_update h] at hd
    rw [hs']
    split at hd
    · rename_i hd'
      cases hd; simp [linked, hdt, hd']
    · rename_i hne
      rw [← hs']
      exact byTransfer_update h hne (hs.linked hd hdt)
  · intro id d' hd
    rw [get?_update h]
    split
    · rename_i hid'
      subst hid'
      rw [hcur'] at hd; cases hd
      exact ⟨d, rfl, Or.inr hm⟩
    · exact ⟨d', hd, Or.inl rfl⟩

theorem update_of_unowned (hcur : s.get? d.id = some cur) (href : d.reference = cur.reference)
    (hown : s.otherOwner? d = none) :
    s.update d cur.status =
      .ok { s with byId := s.byId.insert d.id d, byTransfer := s.linked d } := by
  unfold get? at hcur
  simp only [update, hcur, ne_eq, not_true_eq_false, href, if_false, hown]

theorem update_of_stored (hs : s.Sound) (hcur : s.get? d.id = some cur)
    (href : d.reference = cur.reference) (ht : d.transfer = cur.transfer) :
    ∃ s', s.update d cur.status = .ok s' := by
  have hown : s.otherOwner? d = none := by
    cases hdt : cur.transfer with
    | none => simp [otherOwner?, ht, hdt]
    | some t =>
        have hlink := hs.linked hcur hdt
        simp [otherOwner?, ht, hdt, hlink]
  exact ⟨_, update_of_unowned hcur href hown⟩

end Causeway.Store.Deposits
