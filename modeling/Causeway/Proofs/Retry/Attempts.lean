import Causeway.Proofs.Retry.Timer
import Causeway.Proofs.World.Run
import Mathlib.Algebra.BigOperators.Group.Finset.Basic

/-!
# How attempts end

`EndsAt` says which of the failures that wait at the rail is the last one that a policy takes: it
depends on the failures before it, on the waits between them and on the abort. The other lemmas take
a run of `attempts` through one attempt, by the way it ends.
-/

namespace Causeway

open Finset (range)

namespace Retry

theorem maxAttempts_pos (s : RetrySettings) : 0 < (Policy.ofSettings s).maxAttempts :=
  Nat.le_max_right _ _

theorem retries_succ (s : RetrySettings) :
    (Policy.ofSettings s).retries + 1 = (Policy.ofSettings s).maxAttempts :=
  Nat.sub_add_cancel (maxAttempts_pos s)

/-- The failure with index `k`, counted from the first of the `left` attempts that remain, is the
last one: those before it may be tried again, it may not, and no abort is due until it is in. -/
structure EndsAt (delay : Nat → Nat) (left n : Nat) (failures : List Rail.ApiError) (t : Timer)
    (k : Nat) : Prop where
  within : k < left
  passing : ∀ e ∈ failures.take k, e.isRetryable
  final : ∃ e, failures[k]? = some e ∧ (e.isRetryable = false ∨ k + 1 = left)
  clear : t.Clear (∑ i ∈ range k, delay (n + i))

variable {delay : Nat → Nat} {left n k : Nat} {e : Rail.ApiError} {es : List Rail.ApiError}
  {t : Timer}

theorem endsAt_zero_iff :
    EndsAt delay (left + 1) n (e :: es) t 0 ↔ (e.isRetryable = false ∨ left = 0) ∧ t.Clear 0 := by
  constructor
  · intro h
    obtain ⟨e', he, hlast⟩ := h.final
    cases he
    exact ⟨hlast.imp_right (by omega), by simpa using h.clear⟩
  · rintro ⟨hlast, hclear⟩
    exact ⟨by omega, by simp, ⟨e, rfl, hlast.imp_right (by omega)⟩, by simpa using hclear⟩

/-- After a failure that may be tried again the next attempt comes when its wait has passed. -/
theorem endsAt_succ_iff :
    EndsAt delay (left + 1) n (e :: es) t (k + 1) ↔
      e.isRetryable ∧ EndsAt delay left (n + 1) es (t.advance (delay n)) k := by
  have hsum : ∑ i ∈ range (k + 1), delay (n + i) =
      delay n + ∑ i ∈ range k, delay (n + 1 + i) := by
    rw [Finset.sum_range_succ', Nat.add_comm]
    simp only [Nat.add_zero, Nat.add_assoc, Nat.add_comm 1]
  constructor
  · intro h
    obtain ⟨e', he, hlast⟩ := h.final
    refine ⟨h.passing e (by simp), Nat.lt_of_succ_lt_succ h.within, ?_, ⟨e', he, ?_⟩, ?_⟩
    · exact fun e' he' => h.passing e' (by simp [he'])
    · exact hlast.imp_right Nat.succ.inj
    · rw [Timer.clear_advance_iff, ← hsum]
      exact h.clear
  · rintro ⟨hfirst, h⟩
    obtain ⟨e', he, hlast⟩ := h.final
    refine ⟨Nat.succ_lt_succ h.within, ?_, ⟨e', he, hlast.imp_right (congrArg Nat.succ)⟩, ?_⟩
    · simpa [hfirst] using h.passing
    · rw [hsum, ← Timer.clear_advance_iff]
      exact h.clear

theorem exists_endsAt_cons_iff (he : e.isRetryable) (hleft : left ≠ 0) :
    (∃ k, EndsAt delay (left + 1) n (e :: es) t k) ↔
      ∃ k, EndsAt delay left (n + 1) es (t.advance (delay n)) k := by
  constructor
  · rintro ⟨k, hk⟩
    cases k with
    | zero =>
        have hlast := (endsAt_zero_iff.mp hk).1
        simp [he, hleft] at hlast
    | succ k => exact ⟨k, (endsAt_succ_iff.mp hk).2⟩
  · rintro ⟨k, hk⟩
    exact ⟨k + 1, endsAt_succ_iff.mpr ⟨he, hk⟩⟩

theorem not_endsAt_nil : ¬ EndsAt delay left n [] t k := by
  intro h
  obtain ⟨_, he, _⟩ := h.final
  simp at he

theorem EndsAt.clear_zero (h : EndsAt delay left n es t k) : t.Clear 0 :=
  h.clear.mono (Nat.zero_le _)

/-! ## One attempt after another -/

variable {α : Type} {more : Nat} {w w' : World} {retryable : Failure → Bool} {stop f : Failure}
  {attempt : Nat → Program (Ending Failure α)} {last : Option Failure}
  {next : Failure → Program (Except Failure α)}

theorem run_attemptOnce_of_aborted (h : w.timer.aborted) :
    w.run (attemptOnce Program.host retryable stop attempt n last next) =
      (.ok (.error (last.getD stop)), w) := by
  have haborted : w.run Program.host.aborted = (.ok true, w) := by
    rw [← h]
    exact w.run_request .isAborted
  exact World.run_bind_of haborted

theorem run_attemptOnce_of_ending {x : Ending Failure α} (h : w.timer.aborted = false)
    (hx : w.run (attempt n) = (.ok x, w')) :
    w.run (attemptOnce Program.host retryable stop attempt n last next) =
      w'.run (match x with
        | .interrupted => pure (.error (last.getD stop))
        | .value a => pure (.ok a)
        | .error e => if !retryable e then pure (.error e) else next e) := by
  have haborted : w.run Program.host.aborted = (.ok false, w) := by
    rw [← h]
    exact w.run_request .isAborted
  refine (World.run_bind_of haborted).trans ?_
  simp only [Bool.false_eq_true, if_false]
  rw [World.run_bind_of hx]
  cases x <;> rfl

theorem run_attempts_of_aborted (h : w.timer.aborted) :
    w.run (attempts Program.host delay retryable stop attempt more n last) =
      (.ok (.error (last.getD stop)), w) := by
  cases more <;> exact run_attemptOnce_of_aborted h

theorem run_attempts_of_interrupted (h : w.timer.aborted = false)
    (hx : w.run (attempt n) = (.ok .interrupted, w')) :
    w.run (attempts Program.host delay retryable stop attempt more n last) =
      (.ok (.error (last.getD stop)), w') := by
  cases more <;> exact run_attemptOnce_of_ending h hx

theorem run_attempts_of_value {v : α} (h : w.timer.aborted = false)
    (hx : w.run (attempt n) = (.ok (.value v), w')) :
    w.run (attempts Program.host delay retryable stop attempt more n last) =
      (.ok (.ok v), w') := by
  cases more <;> exact run_attemptOnce_of_ending h hx

theorem run_attempts_of_final (h : w.timer.aborted = false)
    (hx : w.run (attempt n) = (.ok (.error f), w')) (hf : retryable f = false ∨ more = 0) :
    w.run (attempts Program.host delay retryable stop attempt more n last) =
      (.ok (.error f), w') := by
  cases more with
  | zero =>
      rw [attempts, run_attemptOnce_of_ending h hx]
      dsimp only
      split <;> rfl
  | succ more =>
      have hstop := hf.resolve_right (Nat.succ_ne_zero more)
      rw [attempts, run_attemptOnce_of_ending h hx]
      simp only [hstop, Bool.not_false, if_true]
      rfl

theorem run_attempts_of_passing (h : w.timer.aborted = false)
    (hx : w.run (attempt n) = (.ok (.error f), w')) (hf : retryable f) :
    w.run (attempts Program.host delay retryable stop attempt (more + 1) n last) =
      if (w'.timer.pause (delay n)).1 then
        { w' with timer := (w'.timer.pause (delay n)).2 }.run
          (attempts Program.host delay retryable stop attempt more (n + 1) (some f))
      else (.ok (.error f), { w' with timer := (w'.timer.pause (delay n)).2 }) := by
  rw [attempts, run_attemptOnce_of_ending h hx]
  simp only [hf, Bool.not_true, Bool.false_eq_true, if_false]
  refine (World.run_bind_of (w'.run_pause (delay n))).trans ?_
  split <;> rfl

end Retry

end Causeway
