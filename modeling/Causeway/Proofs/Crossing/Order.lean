import Causeway.Crossing.Basic
import Causeway.Proofs.Decimal
import Causeway.Proofs.Retry.Attempts
import Causeway.Proofs.World.Perform

/-!
# Ordering a transfer that the rail holds already

An order under a reference that the rail has seen is answered with the transfer made for it, once the
failures that wait at the rail are spent. `run_attempts` goes through the attempts to see whether it
gets there.
-/

namespace Causeway

open Retry (Timer)

namespace World

variable {w w' w'' : World} {o : Rail.Order} {t : Rail.Transfer} {e : Rail.ApiError}
  {es : List Rail.ApiError}

/-- What an order for a held transfer leaves as it was: the deposits, the transfers and what the
script holds for the deposits. -/
structure Alike (w w' : World) : Prop where
  deposits : w'.deposits = w.deposits
  transfers : w'.rail.transfers = w.rail.transfers
  race : w'.script.race = w.script.race
  faults : w'.script.faults = w.script.faults
  updateFaults : w'.script.updateFaults = w.script.updateFaults

theorem Alike.refl (w : World) : Alike w w := ⟨rfl, rfl, rfl, rfl, rfl⟩

theorem Alike.trans (h : Alike w w') (h' : Alike w' w'') : Alike w w'' where
  deposits := h'.deposits.trans h.deposits
  transfers := h'.transfers.trans h.transfers
  race := h'.race.trans h.race
  faults := h'.faults.trans h.faults
  updateFaults := h'.updateFaults.trans h.updateFaults

theorem Alike.wait (h : Alike w w') (timer : Timer) : Alike w { w' with timer } :=
  ⟨h.deposits, h.transfers, h.race, h.faults, h.updateFaults⟩

theorem Alike.held (h : Alike w w') {reference : String}
    (ht : w.rail.findReference? reference = some t) :
    w'.rail.findReference? reference = some t := by
  simpa only [Rail.Sandbox.findReference?, h.transfers] using ht

theorem createTransfer_of_failure (hf : w.rail.createFailures = e :: es) :
    ∃ w', w.perform (.createTransfer o) = (.ok ⟨.error e, 0⟩, w') ∧ Alike w w' ∧
      w'.timer = w.timer ∧ w'.rail.createFailures = es := by
  simp only [perform, createTransfer, send, Rail.Sandbox.create, hf, delayed]
  exact ⟨_, rfl, ⟨rfl, rfl, rfl, rfl, rfl⟩, rfl, rfl⟩

theorem createTransfer_of_held (hf : w.rail.createFailures = []) (ha : ¬ o.amount ≤ .zero)
    (ht : w.rail.findReference? o.reference = some t) :
    ∃ ms w', w.perform (.createTransfer o) = (.ok ⟨.ok t, ms⟩, w') ∧ Alike w w' := by
  unfold Rail.Sandbox.findReference? at ht
  simp only [perform, createTransfer, send, Rail.Sandbox.create, hf, if_neg ha,
    Rail.Sandbox.findReference?, ht, delayed, Script.delay]
  split <;> exact ⟨_, _, rfl, ⟨rfl, rfl, rfl, rfl, rfl⟩⟩

theorem Alike.accepts_iff (h : Alike w w') {status : Deposit.Status} :
    w'.Accepts status ↔ w.Accepts status := by
  simp [Accepts, Script.fault?, Script.updateFault?, h.faults, h.updateFaults]

/-! ## One attempt -/

variable {p : ProviderSettings} {r : Conversion.Request}

theorem run_convert_of_failure (hv : p.validate r = .ok ())
    (hf : w.rail.createFailures = e :: es) :
    ∃ w', w.run (Provider.convert p r).ending = (.ok (.error (.ofApiError e)), w') ∧
      Alike w w' ∧ w'.timer = w.timer ∧ w'.rail.createFailures = es := by
  obtain ⟨w', hr, hw'⟩ := createTransfer_of_failure (o := p.order r) hf
  refine ⟨w', ?_, hw'⟩
  have hcreate : w.run (Provider.createTransfer (p.order r)).run =
      (.ok (.error (.failure (.ofApiError e))), w') :=
    run_seq (run_lift ((run_request w _).trans hr))
  have hconvert : w.run (Provider.convert p r).run =
      (.ok (.error (.failure (.ofApiError e))), w') := by
    unfold Provider.convert
    rw [hv]
    exact (run_seq rfl).trans (run_seq_of_error hcreate)
  exact run_bind_of hconvert

/-- An answer is awaited to its end, or an abort comes first. -/
theorem run_receive {ε α : Type} (failure : ε → Failure) (a : α) (ms : Nat) (w : World) :
    ∃ x w', w.run (Attempt.receive failure ⟨.ok a, ms⟩).run = (.ok x, w') ∧ Alike w w' ∧
      (x = .ok a ∨ x = .error .interrupted ∧ w'.timer.aborted) := by
  unfold Attempt.receive
  dsimp only
  split
  · rw [run_seq (run_lift (run_pause w ms))]
    by_cases hclear : w.timer.Clear ms
    · rw [Timer.pause_of_clear hclear]
      exact ⟨_, _, rfl, (Alike.refl w).wait _, .inl rfl⟩
    · obtain ⟨helapsed, habort⟩ := Timer.aborted_of_not_clear hclear
      rw [helapsed]
      exact ⟨_, _, rfl, (Alike.refl w).wait _, .inr ⟨rfl, habort⟩⟩
  · exact ⟨_, _, rfl, .refl w, .inl rfl⟩

theorem run_convert_of_held (hv : p.validate r = .ok ()) (hf : w.rail.createFailures = [])
    (ht : w.rail.findReference? r.key = some t) :
    ∃ x w', w.run (Provider.convert p r).ending = (.ok x, w') ∧ Alike w w' ∧
      (x = .value (t.response r.direction) ∨ x = .interrupted ∧ w'.timer.aborted) := by
  obtain ⟨ms, w₁, hr, hw₁⟩ :=
    createTransfer_of_held (o := p.order r) hf (Decimal.not_le_zero r.amount) ht
  obtain ⟨x, w₂, hx, hw₂, hcases⟩ := run_receive Failure.ofApiError t ms w₁
  have hcreate : w.run (Provider.createTransfer (p.order r)).run = (.ok x, w₂) := by
    rw [← hx]
    exact run_seq (run_lift ((run_request w _).trans hr))
  have hconvert : w.run (Provider.convert p r).run =
      w.run (do let t ← Provider.createTransfer (p.order r); pure (t.response r.direction) :
        Attempt Conversion.Response).run := by
    unfold Provider.convert
    rw [hv]
    exact run_seq rfl
  rcases hcases with rfl | ⟨rfl, habort⟩
  · refine ⟨_, w₂, run_bind_of (hconvert.trans (run_seq hcreate)), hw₁.trans hw₂, .inl rfl⟩
  · refine ⟨_, w₂, run_bind_of (hconvert.trans (run_seq_of_error hcreate)), hw₁.trans hw₂, ?_⟩
    exact .inr ⟨rfl, habort⟩

/-! ## The attempts -/

/-- How the order for a held transfer ends. It fails for good if `gone`, which says that the
failures have used up its attempts; otherwise it is answered with that transfer or aborted. -/
inductive Ordered (t : Rail.Transfer) (gone : Prop) (w : World) :
    Except Failure Conversion.Response → Prop where
  | answered (response : Conversion.Response) (h : ¬ gone) (ht : response.transfer = t.id) :
      Ordered t gone w (.ok response)
  | aborted (e : Failure) (h : ¬ gone) (hw : w.timer.aborted) : Ordered t gone w (.error e)
  | refused (e : Failure) (h : gone) (he : e ≠ .cancelled) (hw : w.timer.aborted = false) :
      Ordered t gone w (.error e)

theorem Ordered.congr {gone gone' : Prop} {x : Except Failure Conversion.Response}
    (h : Ordered t gone w x) (hg : gone ↔ gone') : Ordered t gone' w x := by
  rw [← propext hg]
  exact h

/-- The induction is on the attempts that may follow: a failure that may be tried again leaves the
same question for one attempt less, later by the wait. -/
theorem run_attempts (delay : Nat → Nat) (hv : p.validate r = .ok ()) (more n : Nat)
    (last : Option Failure) (w : World) (ht : w.rail.findReference? r.key = some t) :
    ∃ x w', w.run (Retry.attempts Program.host delay Failure.isRetryable .cancelled
        (fun _ => (Provider.convert p r).ending) more n last) = (.ok x, w') ∧ Alike w w' ∧
      Ordered t (∃ k, Retry.EndsAt delay (more + 1) n w.rail.createFailures w.timer k) w' x := by
  induction more using Nat.strongRecOn generalizing n last w with
  | _ more ih =>
      by_cases hclear : w.timer.Clear 0
      · have hgo := Timer.aborted_eq_false_iff.mpr hclear
        cases hf : w.rail.createFailures with
        | nil =>
            obtain ⟨x, w', hx, hw', hcases⟩ := run_convert_of_held hv hf ht
            have hnever : ¬ ∃ k, Retry.EndsAt delay (more + 1) n [] w.timer k :=
              fun ⟨_, hk⟩ => Retry.not_endsAt_nil hk
            rcases hcases with rfl | ⟨rfl, habort⟩
            · exact ⟨_, w', Retry.run_attempts_of_value hgo hx, hw', .answered _ hnever rfl⟩
            · exact ⟨_, w', Retry.run_attempts_of_interrupted hgo hx, hw', .aborted _ hnever habort⟩
        | cons e es =>
            obtain ⟨w₁, hx, hw₁, htimer, hfailures⟩ := run_convert_of_failure hv hf
            by_cases hlast : e.isRetryable = false ∨ more = 0
            · have hgone : ∃ k, Retry.EndsAt delay (more + 1) n (e :: es) w.timer k :=
                ⟨0, Retry.endsAt_zero_iff.mpr ⟨hlast, hclear⟩⟩
              refine ⟨_, w₁, Retry.run_attempts_of_final hgo hx hlast, hw₁, ?_⟩
              exact .refused _ hgone Failure.noConfusion (by rw [htimer, hgo])
            · simp only [not_or, Bool.not_eq_false] at hlast
              obtain ⟨hretry, hmore⟩ := hlast
              obtain ⟨more, rfl⟩ := Nat.exists_eq_succ_of_ne_zero hmore
              rw [Retry.run_attempts_of_passing hgo hx hretry, htimer,
                Retry.exists_endsAt_cons_iff hretry hmore]
              by_cases hwait : w.timer.Clear (delay n)
              · rw [Timer.pause_of_clear hwait, if_pos rfl]
                obtain ⟨x, w', hx, hw', hends⟩ := ih more (Nat.lt_succ_self more) (n + 1)
                  (some (.ofApiError e)) { w₁ with timer := w.timer.advance (delay n) }
                  (hw₁.held ht)
                refine ⟨x, w', hx, (hw₁.wait _).trans hw', ?_⟩
                rw [← hfailures]
                exact hends
              · obtain ⟨helapsed, habort⟩ := Timer.aborted_of_not_clear hwait
                rw [helapsed, if_neg Bool.false_ne_true]
                refine ⟨_, _, rfl, hw₁.wait _, .aborted _ ?_ habort⟩
                rintro ⟨k, hk⟩
                exact hwait (Timer.clear_advance_iff.mp hk.clear_zero)
      · have habort : w.timer.aborted = true := by
          simpa [← Timer.aborted_eq_false_iff] using hclear
        refine ⟨_, w, Retry.run_attempts_of_aborted habort, .refl w, .aborted _ ?_ habort⟩
        rintro ⟨k, hk⟩
        exact hclear hk.clear_zero

end World

end Causeway
