import Causeway.Proofs.Deposit.Moves

/-!
# What a deposit never loses

A coherent deposit holds nothing that a later stage leaves behind. From there on every change only
adds: what it was created with and what was settled of it stay, and a deposit that has ended its way
keeps everything but the mark of its usage (`Leads.extends`).
-/

namespace Causeway.Deposit

variable {d d' d'' : Deposit} {e : Event} {now : Instant}

/-- Nothing of a later stage is there. -/
structure Coherent (d : Deposit) : Prop where
  transfer : d.status = .created → d.transfer = none
  destinationAmount : d.status = .created ∨ d.status = .railInitiated → d.destinationAmount = none
  fundingRef : d.status ≠ .brokerFunded → d.fundingRef = none
  failureReason : d.status ≠ .failed → d.failureReason = none

theorem coherent_start (id user account : Uuid) (reference : String) (amount : Amount)
    (currency : String) (now : Instant) :
    (start id user account reference amount currency now).Coherent :=
  ⟨fun _ => rfl, fun _ => rfl, fun _ => rfl, fun _ => rfl⟩

theorem Coherent.apply (hc : d.Coherent) (h : d.apply e now = .ok d') : d'.Coherent := by
  obtain ⟨hal, rfl⟩ := apply_eq_ok_iff.mp h
  have hcf := hc.fundingRef
  have hcr := hc.failureReason
  cases e with
  | failed _ =>
      -- The stage before is one of three, and in none of them is there a funding reference.
      rcases hal with hs | hs | hs <;> constructor <;> simp_all [after]
  | railInitiated _ =>
      have hcd := hc.destinationAmount
      constructor <;> simp_all [after, Allows]
  | _ => constructor <;> simp_all [after, Allows]

theorem Coherent.advance (hc : d.Coherent) (h : d.Allows e) : (d.after e now).Coherent :=
  hc.apply (apply_eq_ok_iff.mpr ⟨h, rfl⟩)

/-- Everything that `d` has and that may not be lost is in `d'` as well. -/
structure Extends (d' d : Deposit) : Prop where
  origin : d'.origin = d.origin
  transfer : ∀ t, d.transfer = some t → d'.transfer = some t
  destinationAmount : ∀ x, d.destinationAmount = some x → d'.destinationAmount = some x
  fundingRef : ∀ r, d.fundingRef = some r → d'.fundingRef = some r
  failureReason : ∀ r, d.failureReason = some r → d'.failureReason = some r
  failed : d.status = .failed → d' = d
  funded : d.status = .brokerFunded → d' = d.markedAs d'

theorem Extends.refl (d : Deposit) : d.Extends d :=
  ⟨rfl, fun _ h => h, fun _ h => h, fun _ h => h, fun _ h => h, fun _ => rfl, fun _ => rfl⟩

theorem Extends.trans (h : d''.Extends d') (h' : d'.Extends d) : d''.Extends d where
  origin := h.origin.trans h'.origin
  transfer t ht := h.transfer t (h'.transfer t ht)
  destinationAmount x hx := h.destinationAmount x (h'.destinationAmount x hx)
  fundingRef r hr := h.fundingRef r (h'.fundingRef r hr)
  failureReason r hr := h.failureReason r (h'.failureReason r hr)
  failed hs := by
    have hd := h'.failed hs
    rw [h.failed (by rw [hd]; exact hs), hd]
  funded hs := by
    have hd := h'.funded hs
    rw [h.funded (by rw [hd]; exact hs), hd]; rfl

theorem Coherent.extends (hc : d.Coherent) (h : d.apply e now = .ok d') : d'.Extends d := by
  obtain ⟨hal, rfl⟩ := apply_eq_ok_iff.mp h
  have hct := hc.transfer
  have hcd := hc.destinationAmount
  have hcf := hc.fundingRef
  have hcr := hc.failureReason
  cases e with
  | failed _ => rcases hal with hs | hs | hs <;> constructor <;> simp_all [after, Deposit.origin]
  | usageRecorded => constructor <;> simp_all [after, Allows, Deposit.origin, markedAs]
  | _ => constructor <;> simp_all [after, Allows, Deposit.origin]

theorem Leads.coherent (h : d.Leads d') (hc : d.Coherent) : d'.Coherent := by
  induction h with
  | refl => exact hc
  | tail _ h ih =>
      obtain ⟨e, now, ha, _⟩ := h
      exact ih.apply ha

theorem Leads.extends (h : d.Leads d') (hc : d.Coherent) : d'.Extends d := by
  induction h with
  | refl => exact .refl d
  | tail hb h ih =>
      obtain ⟨e, now, ha, _⟩ := h
      exact ((Leads.coherent hb hc).extends ha).trans ih

/-- An event other than the mark of usage takes the deposit to a next stage. -/
theorem canBecome_after (h : d.Allows e) (hne : e ≠ .usageRecorded) :
    d.status.canBecome (d.after e now).status := by
  cases e with
  | failed reason => rcases h with h | h | h <;> simp [after, Status.canBecome, h]
  | usageRecorded => exact absurd rfl hne
  | _ => simp_all [after, Allows, Status.canBecome]

theorem status_of_apply (h : d.apply e now = .ok d') :
    d'.status = d.status ∨ d.status.canBecome d'.status := by
  obtain ⟨hal, rfl⟩ := apply_eq_ok_iff.mp h
  by_cases he : e = .usageRecorded
  · subst he
    exact .inl rfl
  · exact .inr (canBecome_after hal he)

end Causeway.Deposit
