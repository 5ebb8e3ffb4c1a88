import Causeway.Proofs.Decimal.Rounding
import Causeway.Proofs.Quota.Gate
import Causeway.Proofs.Store.Tally

/-!
# Counters of what was admitted

With amounts of at most twenty places, what the gate admits and what is counted afterwards is summed
without rounding (`Admitted.within`, `Holds.apply`). So an amount that is admitted keeps the sum of
the running period within its cap.
-/

namespace Causeway

open Decimal (HasPlaces Representable)

namespace Quota

variable {tier : Tier} {usage : Usage} {amount : Decimal} {p : Period} {i : Int}
  {xs : List (Instant × ℚ)} {t now : Instant}

/-- What was added can be summed without rounding. -/
def Fine (xs : List (Instant × ℚ)) : Prop := ∀ x ∈ xs, 0 ≤ x.2 ∧ HasPlaces 20 x.2

theorem sumIn_fine (h : Fine xs) (p : Period) (i : Int) :
    0 ≤ sumIn p i xs ∧ HasPlaces 20 (sumIn p i xs) := by
  induction xs with
  | nil => exact ⟨le_refl _, .zero 20⟩
  | cons x xs ih =>
      obtain ⟨hx, hxs⟩ := List.forall_mem_cons.mp h
      obtain ⟨hsum, hplaces⟩ := ih hxs
      rw [sumIn_cons]
      split
      · exact ⟨add_nonneg hx.1 hsum, hx.2.add hplaces⟩
      · rw [zero_add]
        exact ⟨hsum, hplaces⟩

theorem cap_le (tier : Tier) (p : Period) :
    (tier.caps .deposit).during p ≤ { magnitude := 100000000, places := 0 } := by
  cases tier <;> cases p <;> decide

/-- What is admitted adds up exactly, and keeps the sum of the running period within its cap. -/
theorem Admitted.within (h : Admitted tier usage .deposit amount) (hm : usage.deposit.Holds xs t)
    (hxs : Fine xs) (ha : 0 ≤ amount.value ∧ HasPlaces 20 amount.value) (p : Period) :
    Representable (sumIn p (p.index t) xs + amount.value) ∧
      sumIn p (p.index t) xs + amount.value ≤ ((tier.caps .deposit).during p).value := by
  obtain ⟨total, hadd, hle⟩ := h.fits p
  obtain ⟨hsum, hplaces⟩ := sumIn_fine hxs p (p.index t)
  have hused : ((usage.meter .deposit).during p).used.value = sumIn p (p.index t) xs :=
    (hm.during p).used
  rw [Decimal.le_iff] at hle
  have hcap := Decimal.le_iff.mp (cap_le tier p)
  have hmost : Decimal.value { magnitude := 100000000, places := 0 } = 100000000 := by
    simp [Decimal.value, Decimal.coefficient, Decimal.signed]
  have hexact : total.value = sumIn p (p.index t) xs + amount.value := by
    rw [← hused]
    refine Decimal.add_exact ?_ ?_ hadd (by rw [← hmost]; exact hle.trans hcap)
    · rw [hused]
      exact hplaces.add ha.2
    · rw [hused]
      exact add_nonneg hsum ha.1
  rw [← hexact]
  exact ⟨⟨total, rfl⟩, hle⟩

/-- What can be added in the period of `t` can be added later, when that period may be over. -/
theorem representable_later (hup : ∀ x ∈ xs, p.index x.1 ≤ p.index t) (hle : t ≤ now)
    (h : Representable (sumIn p (p.index t) xs + amount.value)) :
    Representable (sumIn p (p.index now) ((now, amount.value) :: xs)) := by
  rw [sumIn_cons, if_pos rfl, add_comm]
  rcases Int.lt_or_eq_of_le (Period.index_mono (p := p) hle) with hlt | heq
  · rw [sumIn_eq_zero fun x hx => Int.lt_of_le_of_lt (hup x hx) hlt, zero_add]
    exact ⟨amount, rfl⟩
  · rw [← heq]
    exact h

end Quota

namespace Store.Usages

open Quota

variable {s : Usages} {user user' id : Uuid} {amount : Decimal} {xs : List (Instant × ℚ)}
  {since since' : Instant → Prop} {t now : Instant}

/-- Looking at a user's counters leaves what all counters hold. -/
theorem Holds.after_reset (h : s.Holds user xs since) (hsince : ∀ t, since t → t ≤ now)
    (hlast : now < .last) (user' : Uuid) (hmono : ∀ t, since t → since' t) (hnow : since' now) :
    (s.reset user' now).2.Holds user xs since' := by
  rw [← holdsIn_deposit] at h ⊢
  refine HoldsIn.put rfl (fun heq => ⟨now, hnow, ?_⟩) (fun _ => h) hmono
  subst heq
  rw [Usage.meter_roll]
  exact h.entry hsince hlast

/-- A deposit that is counted for its user is counted there alone. -/
theorem Holds.after_apply (h : s.Holds user xs since) (hsince : ∀ t, since t → t ≤ now)
    (hlast : now < .last) (ha : ¬ amount ≤ .zero) (hid : id ∉ s.applied)
    (hexact : user' = user → ∀ p : Period,
      Representable (sumIn p (p.index now) ((now, amount.value) :: xs)))
    (hmono : ∀ t, since t → since' t) (hnow : since' now) :
    (s.apply user' id amount now).2.Holds user
      (if user' = user then (now, amount.value) :: xs else xs) since' := by
  rw [← holdsIn_deposit] at h ⊢
  rcases apply_cases s user' id amount now with ⟨hle, -⟩ | ⟨hmem, -⟩ | ⟨-, -, hstore, -⟩
  · exact absurd hle ha
  · exact absurd hmem hid
  · rw [hstore]
    refine HoldsIn.put rfl (fun heq => ⟨now, hnow, ?_⟩) (fun hne => ?_) hmono
    · subst heq
      rw [if_pos rfl]
      have hroll := h.entry hsince hlast
      exact Usage.holds_add (exact_of_representable hroll (hexact rfl)) hroll
    · rw [if_neg hne]
      exact h

end Store.Usages

end Causeway
