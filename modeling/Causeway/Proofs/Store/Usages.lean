import Causeway.Proofs.Quota.Counter
import Causeway.Store.Usages

/-!
# Changes of the usage store

A deposit is applied or it is not: what changes the counters notes the id, and what does not note it
changes nothing (`apply_cases`).
-/

namespace Causeway.Store.Usages

open Quota

variable {s : Usages} {user id : Uuid} {amount : Decimal} {now : Instant}

theorem apply_cases (s : Usages) (user id : Uuid) (amount : Decimal) (now : Instant) :
    (amount ≤ .zero ∧ s.apply user id amount now =
        (.ok (.error (.invalid (.incrementNotPositive amount))), s)) ∨
      (id ∈ s.applied ∧ s.apply user id amount now = (.ok (.ok false), s)) ∨
      (¬ amount ≤ .zero ∧ id ∉ s.applied ∧
        (s.apply user id amount now).2 =
          { byUser := s.byUser.insert user ((s.entry user now).add .deposit amount now).1
            applied := s.applied ++ [id] } ∧
        (s.apply user id amount now).1 =
          match ((s.entry user now).add .deposit amount now).2 with
          | none => .ok (.ok true)
          | some o => .error o) := by
  by_cases ha : amount ≤ .zero
  · exact Or.inl ⟨ha, by simp only [apply, ha, if_true]⟩
  · by_cases hid : id ∈ s.applied
    · exact Or.inr (Or.inl ⟨hid, by simp only [apply, ha, hid, if_true, if_false]⟩)
    · refine Or.inr (Or.inr ⟨ha, hid, ?_⟩)
      simp only [apply, ha, hid, if_false, addEntry, entry, put]
      rcases ((s.byUser.get? user).getD (Usage.start user now)).add .deposit amount now with
        ⟨u, _ | o⟩ <;> exact ⟨rfl, rfl⟩

theorem mem_applied_apply {id' : Uuid} (h : id' ∈ s.applied) :
    id' ∈ (s.apply user id amount now).2.applied := by
  rcases apply_cases s user id amount now with ⟨_, he⟩ | ⟨_, he⟩ | ⟨_, _, he, _⟩
  · rw [he]; exact h
  · rw [he]; exact h
  · rw [he]; exact List.mem_append_left _ h

theorem mem_applied_of_apply {id' : Uuid} (h : id' ∈ (s.apply user id amount now).2.applied) :
    id' ∈ s.applied ∨ id' = id := by
  rcases apply_cases s user id amount now with ⟨_, he⟩ | ⟨_, he⟩ | ⟨_, _, he, _⟩
  · rw [he] at h; exact Or.inl h
  · rw [he] at h; exact Or.inl h
  · rw [he] at h; simpa using h

theorem mem_applied_of_ok {b : Bool} (h : (s.apply user id amount now).1 = .ok (.ok b)) :
    id ∈ (s.apply user id amount now).2.applied := by
  rcases apply_cases s user id amount now with ⟨_, he⟩ | ⟨hid, he⟩ | ⟨_, _, he, _⟩
  · rw [he] at h; cases h
  · rw [he]; exact hid
  · rw [he]; exact List.mem_append_right _ (List.mem_singleton_self id)

theorem applied_apply (h : (s.apply user id amount now).1 = .ok (.ok true)) :
    (s.apply user id amount now).2.applied = s.applied ++ [id] := by
  rcases apply_cases s user id amount now with ⟨_, he⟩ | ⟨_, he⟩ | ⟨_, _, he, _⟩
  · rw [he] at h; cases h
  · rw [he] at h; cases h
  · rw [he]

/-- A positive amount is not refused. -/
theorem apply_answer (ha : ¬ amount ≤ .zero) {a : Except Failure Bool}
    (h : (s.apply user id amount now).1 = .ok a) : ∃ b, a = .ok b := by
  rcases apply_cases s user id amount now with ⟨hle, _⟩ | ⟨_, he⟩ | ⟨_, _, _, he⟩
  · exact absurd hle ha
  · rw [he] at h
    cases h
    exact ⟨_, rfl⟩
  · rw [he] at h
    split at h
    · cases h
      exact ⟨_, rfl⟩
    · cases h

/-! ## Counters -/

/-- The counters of one flow of the user hold `xs` since an instant at which `since` is true; without
counters, nothing has been added. -/
def HoldsIn (s : Usages) (user : Uuid) (flow : Flow) (xs : List (Instant × ℚ))
    (since : Instant → Prop) : Prop :=
  s.byUser.get? user = none ∧ xs = [] ∨
    ∃ u t, s.byUser.get? user = some u ∧ since t ∧ (u.meter flow).Holds xs t

variable {flow : Flow} {xs : List (Instant × ℚ)} {since since' : Instant → Prop}

/-- The counters once those whose period has ended have been started anew. -/
theorem HoldsIn.entry (h : s.HoldsIn user flow xs since) (hsince : ∀ t, since t → t ≤ now)
    (hlast : now < .last) : (((s.entry user now).meter flow).roll now).Holds xs now := by
  unfold Usages.entry
  rcases h with ⟨hnone, rfl⟩ | ⟨u, t, hu, ht, hholds⟩
  · rw [hnone]
    have hstart : ((Usage.start user now).meter flow) = .start now := by cases flow <;> rfl
    rw [Option.getD_none, hstart]
    exact Meter.Holds.start.roll (Int.le_refl _) hlast
  · rw [hu]
    exact hholds.roll (hsince t ht) hlast

theorem HoldsIn.reset (h : s.HoldsIn user flow xs since) (hsince : ∀ t, since t → t ≤ now)
    (hlast : now < .last) : ((s.reset user now).1.meter flow).Holds xs now := by
  have hroll := h.entry hsince hlast
  rw [← Usage.meter_roll] at hroll
  exact hroll

theorem HoldsIn.mono (h : s.HoldsIn user flow xs since) (hsince : ∀ t, since t → since' t) :
    s.HoldsIn user flow xs since' := by
  rcases h with h | ⟨u, t, hu, ht, hholds⟩
  · exact Or.inl h
  · exact Or.inr ⟨u, t, hu, hsince t ht, hholds⟩

/-- The user's deposit counters hold `xs` since an instant at which `since` is true; without
counters, nothing has been added. -/
def Holds (s : Usages) (user : Uuid) (xs : List (Instant × ℚ)) (since : Instant → Prop) : Prop :=
  s.byUser.get? user = none ∧ xs = [] ∨
    ∃ u t, s.byUser.get? user = some u ∧ since t ∧ u.deposit.Holds xs t

theorem holdsIn_deposit : s.HoldsIn user .deposit xs since ↔ s.Holds user xs since :=
  Iff.rfl

theorem Holds.entry (h : s.Holds user xs since) (hsince : ∀ t, since t → t ≤ now)
    (hlast : now < .last) : (((s.entry user now).meter .deposit).roll now).Holds xs now :=
  (holdsIn_deposit.mpr h).entry hsince hlast

theorem Holds.reset (h : s.Holds user xs since) (hsince : ∀ t, since t → t ≤ now)
    (hlast : now < .last) : (s.reset user now).1.deposit.Holds xs now :=
  (holdsIn_deposit.mpr h).reset hsince hlast

theorem Holds.mono (h : s.Holds user xs since) (hsince : ∀ t, since t → since' t) :
    s.Holds user xs since' :=
  (holdsIn_deposit.mpr h).mono hsince

end Causeway.Store.Usages
