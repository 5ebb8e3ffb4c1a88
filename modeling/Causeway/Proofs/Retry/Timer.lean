import Causeway.Retry.Timer

/-!
# Aborts and waits

A timer is clear for a number of milliseconds if no abort is due until they have passed. A wait runs
to its end exactly if the timer is clear for it (`pause_of_clear`), and a wait that does not leaves
an abort that is due (`aborted_of_not_clear`).
-/

namespace Causeway.Retry.Timer

variable {t : Timer} {ms ms' : Nat}

def Clear (t : Timer) (ms : Nat) : Prop := ∀ a, t.abortAt = some a → t.now + ms < a

theorem aborted_eq_false_iff : t.aborted = false ↔ t.Clear 0 := by
  unfold aborted Clear
  cases t.abortAt with
  | none => simp
  | some a => simp

theorem abortAt_now (t : Timer) (now : Nat) : Timer.abortAt { t with now } = t.abortAt := by
  obtain ⟨_, deadline, cancelAt⟩ := t
  cases deadline <;> cases cancelAt <;> rfl

theorem abortAt_advance (t : Timer) (ms : Nat) : (t.advance ms).abortAt = t.abortAt :=
  t.abortAt_now _

theorem clear_advance_iff : (t.advance ms).Clear ms' ↔ t.Clear (ms + ms') := by
  unfold Clear
  rw [abortAt_advance]
  simp only [advance, Nat.add_assoc]

theorem Clear.mono (h : t.Clear ms) (hle : ms' ≤ ms) : t.Clear ms' := by
  intro a ha
  have := h a ha
  omega

/-- A cancelled token is an abort that is due. -/
theorem not_cancelled_of_clear (h : t.Clear ms) : t.cancelled = false := by
  obtain ⟨now, deadline, cancelAt⟩ := t
  cases cancelAt with
  | none => rfl
  | some c =>
      have hc : now < c := by
        cases deadline with
        | none => have := h c rfl; simp at this; omega
        | some d => have := h (min d c) rfl; simp at this; omega
      simpa [cancelled] using hc

theorem pause_of_clear (h : t.Clear ms) : t.pause ms = (true, t.advance ms) := by
  unfold pause wake
  cases ha : t.abortAt with
  | none => rfl
  | some a =>
      have hlt := h a ha
      simp only [if_neg (Nat.not_le.mpr hlt)]
      rfl

theorem aborted_of_not_clear (h : ¬ t.Clear ms) :
    (t.pause ms).1 = false ∧ (t.pause ms).2.aborted = true := by
  simp only [Clear, Classical.not_forall, Nat.not_lt] at h
  obtain ⟨a, ha, hle⟩ := h
  have hp : t.pause ms = (false, { t with now := max t.now a }) := by
    simp only [pause, wake, ha, if_pos hle]
  have habort : Timer.abortAt { t with now := max t.now a } = some a := (t.abortAt_now _).trans ha
  rw [hp]
  refine ⟨rfl, ?_⟩
  simp only [aborted, habort, Option.any_some, decide_eq_true_eq]
  exact Nat.le_max_right ..

theorem aborted_cancel (t : Timer) : t.cancel.aborted := by
  obtain ⟨now, deadline, cancelAt⟩ := t
  cases deadline <;> cases cancelAt <;> simp only [cancel, aborted, abortAt, Option.any_some] <;>
    exact decide_eq_true (by grind)

theorem not_clear_cancel (t : Timer) (ms : Nat) : ¬ t.cancel.Clear ms := by
  intro h
  have hclear := aborted_eq_false_iff.mpr (h.mono (Nat.zero_le ms))
  rw [t.aborted_cancel] at hclear
  cases hclear

/-! ## What lasts -/

/-- An abort that is due stays due, and a cancelled token cancelled. -/
structure Lasting (t t' : Timer) : Prop where
  aborted : t.aborted → t'.aborted
  cancelled : t.cancelled → t'.cancelled

theorem Lasting.refl (t : Timer) : t.Lasting t := ⟨id, id⟩

theorem lasting_of_le {now : Nat} (h : t.now ≤ now) : t.Lasting { t with now } := by
  have hlater : ∀ due : Option Nat, due.any (· ≤ t.now) → due.any (· ≤ now) := by
    rintro (_ | a) ha
    · cases ha
    · exact decide_eq_true (Nat.le_trans (of_decide_eq_true ha) h)
  refine ⟨fun ha => ?_, hlater t.cancelAt⟩
  unfold aborted
  rw [abortAt_now]
  exact hlater t.abortAt ha

theorem lasting_pause (t : Timer) (ms : Nat) : t.Lasting (t.pause ms).2 := by
  have hwake : t.now ≤ (t.wake ms).1 := by
    unfold wake
    split
    · split
      · exact Nat.le_max_left ..
      · exact Nat.le_add_right ..
    · exact Nat.le_add_right ..
  exact lasting_of_le hwake

end Causeway.Retry.Timer
