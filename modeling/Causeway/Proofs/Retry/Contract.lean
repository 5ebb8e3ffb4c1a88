import Causeway.Proofs.Retry.Timer
import Causeway.Retry.Schedule
import Mathlib.Data.List.Basic

/-!
# What a run of attempts keeps to

`Contract` says of a run on a schedule which attempts were made, when each of them started, and what
the run may return: `run_contract` proves it of every policy, every schedule and every timer. A
policy that allows no attempt has one made all the same (`attempt_when_none_is_allowed`).

`Begun` is what holds whenever the run is about to make an attempt. Each way an attempt can end takes
it to the contract or, after the wait, to itself.
-/

namespace Causeway.Retry

def Attempt.failure? {α : Type} (a : Attempt α) : Option (String × Bool) :=
  match a.ending with
  | .ok _ => none
  | .error e => some e

namespace Schedule

variable {α : Type} (p : Policy) (script : Nat → Attempt α) (timer : Timer)

/-- When an attempt that is not cut off ends. -/
def endOf (c : Nat × Nat) : Nat := c.2 + (script c.1).ms

/-- An attempt is complete unless the token or the deadline cuts it off, at its last instant too. -/
def complete (c : Nat × Nat) : Bool := timer.abortAt.all (endOf script c < ·)

/-- The errors of the complete attempts, the latest first. -/
def failures (calls : List (Nat × Nat)) : List (String × Bool) :=
  calls.filterMap fun c => if complete script timer c then (script c.1).failure? else none

/-- An attempt after which there may be another one. -/
def Passing (c : Nat × Nat) : Prop :=
  complete script timer c ∧ ∃ text, (script c.1).ending = .error (text, true)

/-- An abort is set for an instant before attempt `n`: from outside, or by an earlier attempt that
cancelled the token. -/
def AbortSet (calls : List (Nat × Nat)) (n a : Nat) : Prop :=
  timer.abortAt = some a ∨
    ∃ c ∈ calls, c.1 < n ∧ complete script timer c ∧ (script c.1).cancels ∧ a = endOf script c

/-- The attempts are made one after the other, each of them in time. -/
structure Orderly (calls : List (Nat × Nat)) : Prop where
  numbered : calls.reverse.map Prod.fst = List.range calls.length
  passing : ∀ c ∈ calls.tail, Passing script timer c
  first : ∀ c ∈ calls, c.1 = 0 → c.2 = timer.now
  spaced : ∀ c ∈ calls, ∀ c' ∈ calls, c'.1 = c.1 + 1 →
    c'.2 = endOf script c + p.delayFor c.1
  timely : ∀ c ∈ calls, ∀ a, AbortSet script timer calls c.1 a → c.2 < a

structure Contract (result : Except Error α) (r : Run) : Prop where
  orderly : Orderly p script timer r.calls
  bounded : r.calls.length ≤ max p.maxAttempts 1
  value : ∀ v, result = .ok v →
    ∃ c ∈ r.calls.head?, complete script timer c ∧ (script c.1).ending = .ok v
  error : ∀ e, result = .error e → e = (failures script timer r.calls).head?
  aborted : ∀ text, result = .error (some (text, true)) →
    (failures script timer r.calls).length < p.maxAttempts → r.timer.aborted
  cancelled : result = .error none → r.timer.aborted

/-- Attempt `n` is next, and `last` is the error that an abort would surface. -/
structure Begun (n : Nat) (last : Option Error) (r : Run) : Prop where
  orderly : Orderly p script timer r.calls
  length : r.calls.length = n
  outside : r.timer = { timer with now := r.timer.now }
  passing : ∀ c ∈ r.calls, Passing script timer c ∧ (script c.1).cancels = false
  first : n = 0 → r.timer.now = timer.now
  next : ∀ c ∈ r.calls, c.1 + 1 = n → r.timer.now = endOf script c + p.delayFor c.1
  last : last.getD none = (failures script timer r.calls).head?

variable {p script timer} {n more : Nat} {last : Option Error} {r : Run} {v : α}
  {e : String × Bool} {c : Nat × Nat} {calls : List (Nat × Nat)}

/-! ## Complete attempts -/

theorem complete_iff {t : Timer} (ht : t = { timer with now := t.now }) :
    complete script timer (n, t.now) ↔ t.Clear (script n).ms := by
  have habort : t.abortAt = timer.abortAt := by rw [ht, timer.abortAt_now]
  unfold complete endOf Timer.Clear
  rw [habort]
  cases timer.abortAt <;> simp

theorem failures_cons_of_error (hc : complete script timer c)
    (he : (script c.1).ending = .error e) :
    failures script timer (c :: calls) = e :: failures script timer calls := by
  simp [failures, hc, Attempt.failure?, he]

theorem failures_cons_of_not_complete (hc : complete script timer c = false) :
    failures script timer (c :: calls) = failures script timer calls := by
  simp [failures, hc]

theorem length_failures_of_passing (h : ∀ c ∈ calls, Passing script timer c) :
    (failures script timer calls).length = calls.length := by
  induction calls with
  | nil => rfl
  | cons c calls ih =>
      obtain ⟨hc, text, he⟩ := h c (by simp)
      rw [failures_cons_of_error hc he, List.length_cons, List.length_cons,
        ih fun c' hc' => h c' (List.mem_cons_of_mem _ hc')]

theorem Orderly.lt_length (h : Orderly p script timer calls) (hc : c ∈ calls) :
    c.1 < calls.length := by
  have hmem : c.1 ∈ calls.reverse.map Prod.fst := by
    simpa using ⟨c.2, hc⟩
  rwa [h.numbered, List.mem_range] at hmem

/-! ## The attempt that is next -/

namespace Begun

theorem failures_length (h : Begun p script timer n last r) :
    (failures script timer r.calls).length = n :=
  (length_failures_of_passing fun c hc => (h.passing c hc).1).trans h.length

theorem started (h : Begun p script timer n last r) (hclear : r.timer.aborted = false) :
    Orderly p script timer ((n, r.timer.now) :: r.calls) := by
  have hlt : ∀ c ∈ r.calls, c.1 < n := fun c hc => h.length ▸ h.orderly.lt_length hc
  have hdue : ∀ a, timer.abortAt = some a → r.timer.now < a := by
    have hnow := Timer.aborted_eq_false_iff.mp hclear
    unfold Timer.Clear at hnow
    rwa [h.outside, timer.abortAt_now] at hnow
  refine ⟨?_, ?_, ?_, ?_, ?_⟩
  · simp [h.orderly.numbered, h.length, List.range_succ]
  · exact fun c hc => (h.passing c hc).1
  · rintro c hc hzero
    obtain rfl | hc := List.mem_cons.mp hc
    · exact h.first hzero
    · exact h.orderly.first c hc hzero
  · rintro c hc c' hc' hnum
    obtain rfl | hc' := List.mem_cons.mp hc'
    · obtain rfl | hc := List.mem_cons.mp hc
      · simp at hnum
      · exact h.next c hc hnum.symm
    · have := hlt c' hc'
      obtain rfl | hc := List.mem_cons.mp hc
      · simp only at hnum
        omega
      · exact h.orderly.spaced c hc c' hc' hnum
  · rintro c hc a (ha | ⟨c', hc', hlt', -, hcancels, -⟩)
    · obtain rfl | hc := List.mem_cons.mp hc
      · exact hdue a ha
      · exact h.orderly.timely c hc a (.inl ha)
    -- no attempt before this one has cancelled the token
    · obtain rfl | hc' := List.mem_cons.mp hc'
      · obtain rfl | hc := List.mem_cons.mp hc
        · exact absurd hlt' (Nat.lt_irrefl _)
        · exact absurd (hlt c hc) (Nat.lt_asymm hlt')
      · rw [(h.passing c' hc').2] at hcancels
        cases hcancels

theorem stopped (h : Begun p script timer n last r) (hlt : n < max p.maxAttempts 1)
    (hdue : r.timer.aborted) : Contract p script timer (.error (last.getD none)) r where
  orderly := h.orderly
  bounded := h.length ▸ Nat.le_of_lt hlt
  value := fun _ hv => nomatch hv
  error := by
    rintro e he
    cases he
    exact h.last
  aborted := fun _ _ _ => hdue
  cancelled := fun _ => hdue

theorem interrupted {t : Timer} (h : Begun p script timer n last r) (hlt : n < max p.maxAttempts 1)
    (hclear : r.timer.aborted = false) (hcut : ¬ r.timer.Clear (script n).ms) (ht : t.aborted) :
    Contract p script timer (.error (last.getD none)) ⟨t, (n, r.timer.now) :: r.calls⟩ where
  orderly := h.started hclear
  bounded := by simpa [h.length] using Nat.succ_le_of_lt hlt
  value := fun _ hv => nomatch hv
  error := by
    rintro e he
    cases he
    have hc : complete script timer (n, r.timer.now) = false := by
      rwa [← complete_iff h.outside, Bool.not_eq_true] at hcut
    rw [failures_cons_of_not_complete hc]
    exact h.last
  aborted := fun _ _ _ => ht
  cancelled := fun _ => ht

theorem returned {t : Timer} (h : Begun p script timer n last r) (hlt : n < max p.maxAttempts 1)
    (hclear : r.timer.aborted = false) (hend : r.timer.Clear (script n).ms)
    (hv : (script n).ending = .ok v) :
    Contract p script timer (.ok v) ⟨t, (n, r.timer.now) :: r.calls⟩ where
  orderly := h.started hclear
  bounded := by simpa [h.length] using Nat.succ_le_of_lt hlt
  value := by
    rintro v' hv'
    cases hv'
    exact ⟨_, rfl, (complete_iff h.outside).mpr hend, hv⟩
  error := fun _ he => nomatch he
  aborted := fun _ he => nomatch he
  cancelled := fun he => nomatch he

theorem failed {t : Timer} (h : Begun p script timer n last r) (hlt : n < max p.maxAttempts 1)
    (hclear : r.timer.aborted = false) (hend : r.timer.Clear (script n).ms)
    (he : (script n).ending = .error e)
    (hstop : e.2 = true → n + 1 < p.maxAttempts → t.aborted) :
    Contract p script timer (.error (some e)) ⟨t, (n, r.timer.now) :: r.calls⟩ := by
  have hfailures : failures script timer ((n, r.timer.now) :: r.calls) =
      e :: failures script timer r.calls :=
    failures_cons_of_error ((complete_iff h.outside).mpr hend) he
  refine
    { orderly := h.started hclear
      bounded := by simpa [h.length] using Nat.succ_le_of_lt hlt
      value := fun _ hv => nomatch hv
      error := ?_
      aborted := ?_
      cancelled := fun he' => nomatch he' }
  · rintro e' he'
    cases he'
    rw [hfailures]
    rfl
  · intro text htext hfew
    rw [hfailures, List.length_cons, h.failures_length] at hfew
    cases htext
    exact hstop rfl hfew

theorem again {text : String} (h : Begun p script timer n last r)
    (hclear : r.timer.aborted = false) (hend : r.timer.Clear (script n).ms)
    (he : (script n).ending = .error (text, true)) (hquiet : (script n).cancels = false) :
    Begun p script timer (n + 1) (some (some (text, true)))
      ⟨(r.timer.advance (script n).ms).advance (p.delayFor n), (n, r.timer.now) :: r.calls⟩ := by
  have hc := (complete_iff h.outside).mpr hend
  refine ⟨h.started hclear, by simp [h.length], ?_, ?_, by simp, ?_, ?_⟩
  · conv_lhs => rw [h.outside]
    rfl
  · rintro c hmem
    obtain rfl | hmem := List.mem_cons.mp hmem
    · exact ⟨⟨hc, text, he⟩, hquiet⟩
    · exact h.passing c hmem
  · rintro c hmem hnum
    obtain rfl | hmem := List.mem_cons.mp hmem
    · rfl
    · have := h.orderly.lt_length hmem
      have := h.length
      omega
  · rw [failures_cons_of_error hc he]
    rfl

end Begun

/-! ## The run -/

/-- The state after an attempt that was not cut off. -/
def ended (script : Nat → Attempt α) (n : Nat) (r : Run) : Run where
  timer :=
    let t := r.timer.advance (script n).ms
    if (script n).cancels then t.cancel else t
  calls := (n, r.timer.now) :: r.calls

theorem play_of_clear (h : r.timer.Clear (script n).ms) :
    (play script n).run r =
      (match (script n).ending with
        | .ok v => Ending.value v
        | .error e => .error (some e), ended script n r) := by
  simp only [play, host, modify, modifyGet, bind, pure, StateT.run, StateT.bind,
    StateT.modifyGet, MonadStateOf.modifyGet, Timer.pause_of_clear h, ended]
  cases (script n).cancels <;> cases (script n).ending <;> rfl

theorem play_of_cut (h : ¬ r.timer.Clear (script n).ms) :
    (play script n).run r =
      (Ending.interrupted, ⟨(r.timer.pause (script n).ms).2, (n, r.timer.now) :: r.calls⟩) := by
  simp only [play, host, modify, modifyGet, bind, pure, StateT.run, StateT.bind,
    StateT.modifyGet, MonadStateOf.modifyGet, (Timer.aborted_of_not_clear h).1]
  rfl

/-- An attempt that cancels the token leaves no time for a wait. -/
theorem quiet_of_clear {ms : Nat} (h : (ended script n r).timer.Clear ms) :
    (script n).cancels = false := by
  cases hcancels : (script n).cancels with
  | false => rfl
  | true =>
      rw [ended, hcancels] at h
      exact absurd h (Timer.not_clear_cancel _ _)

theorem run_bind_of {β γ : Type} {x : Play β} {f : β → Play γ} {b : β} {r' : Run}
    (h : x.run r = (b, r')) : (x >>= f).run r = (f b).run r' := by
  rw [StateT.run_bind, h]
  rfl

theorem run_attemptOnce_of_aborted {retryable : Error → Bool}
    {next : Error → Play (Except Error α)} (h : r.timer.aborted) :
    (attemptOnce host retryable none (play script) n last next).run r =
      (.error (last.getD none), r) := by
  have haborted : host.aborted.run r = (true, r) := by rw [← h]; rfl
  exact run_bind_of haborted

theorem run_attemptOnce_of_ending {retryable : Error → Bool}
    {next : Error → Play (Except Error α)} {x : Ending Error α} {r' : Run}
    (h : r.timer.aborted = false) (hx : (play script n).run r = (x, r')) :
    (attemptOnce host retryable none (play script) n last next).run r =
      (match x with
        | .interrupted => pure (.error (last.getD none))
        | .value v => pure (.ok v)
        | .error e => if !retryable e then pure (.error e) else next e : Play _).run r' := by
  have haborted : host.aborted.run r = (false, r) := by rw [← h]; rfl
  refine (run_bind_of haborted).trans ((run_bind_of hx).trans ?_)
  cases x <;> rfl

/-- An attempt leads to the contract, if what comes after a failure that may be tried again does. -/
theorem Begun.contract_attemptOnce {next : Error → Play (Except Error α)}
    (h : Begun p script timer n last r) (hlt : n < max p.maxAttempts 1)
    (hnext : ∀ text, r.timer.aborted = false → r.timer.Clear (script n).ms →
      (script n).ending = .error (text, true) →
      let x := (next (some (text, true))).run (ended script n r)
      Contract p script timer x.1 x.2) :
    let x := (attemptOnce host (fun e => e.any (·.2)) none (play script) n last next).run r
    Contract p script timer x.1 x.2 := by
  cases hclear : r.timer.aborted with
  | true =>
      rw [run_attemptOnce_of_aborted hclear]
      exact h.stopped hlt hclear
  | false =>
      by_cases hend : r.timer.Clear (script n).ms
      · rw [run_attemptOnce_of_ending hclear (play_of_clear hend)]
        cases hx : (script n).ending with
        | ok v => exact h.returned hlt hclear hend hx
        | error e =>
            obtain ⟨text, _ | _⟩ := e
            · exact h.failed hlt hclear hend hx fun hretry => nomatch hretry
            · exact hnext text hclear hend hx
      · rw [run_attemptOnce_of_ending hclear (play_of_cut hend)]
        exact h.interrupted hlt hclear hend (Timer.aborted_of_not_clear hend).2

/-- The induction is on the attempts that may follow the one that is next. -/
theorem Begun.contract (h : Begun p script timer n last r)
    (hn : n + more + 1 = max p.maxAttempts 1) :
    let x := (attempts host p.delayFor (fun e => e.any (·.2)) none (play script) more n last).run r
    Contract p script timer x.1 x.2 := by
  induction more generalizing n last r with
  | zero =>
      refine h.contract_attemptOnce (by omega) fun text hclear hend hx => ?_
      exact h.failed (by omega) hclear hend hx fun _ hlt => by omega
  | succ more ih =>
      refine h.contract_attemptOnce (by omega) fun text hclear hend hx => ?_
      have hpause : (host.pause (p.delayFor n)).run (ended script n r) =
          (((ended script n r).timer.pause (p.delayFor n)).1,
            { ended script n r with timer := ((ended script n r).timer.pause (p.delayFor n)).2 }) :=
        rfl
      dsimp only
      rw [run_bind_of hpause]
      by_cases hwait : (ended script n r).timer.Clear (p.delayFor n)
      · have hquiet := quiet_of_clear hwait
        rw [Timer.pause_of_clear hwait, ended, hquiet]
        exact ih (h.again hclear hend hx hquiet) (by omega)
      · obtain ⟨hcut, hdue⟩ := Timer.aborted_of_not_clear hwait
        rw [hcut]
        exact h.failed (by omega) hclear hend hx fun _ _ => hdue

theorem begun_initially (p : Policy) (script : Nat → Attempt α) (timer : Timer) :
    Begun p script timer 0 none ⟨timer, []⟩ := by
  constructor <;> simp [failures]
  constructor <;> simp

theorem run_contract (p : Policy) (script : Nat → Attempt α) (timer : Timer) :
    Contract p script timer (run p script timer).1 (run p script timer).2 := by
  refine (begun_initially p script timer).contract ?_
  unfold Policy.retries
  omega

/-- The attempts made are counted once one has failed. -/
theorem attempt_when_none_is_allowed :
    let p : Policy := ⟨0, 500, 5000, 2.0⟩
    let script : Nat → Attempt String := fun _ => ⟨0, false, .error ("e0", true)⟩
    ¬ (run p script {}).2.calls.length ≤ p.maxAttempts := by
  decide

end Schedule

end Causeway.Retry
