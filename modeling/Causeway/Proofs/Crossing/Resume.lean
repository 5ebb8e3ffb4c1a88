import Causeway.Crossing.Sweep
import Causeway.Proofs.Crossing.Conduct
import Causeway.Proofs.Crossing.Onward
import Causeway.Proofs.Crossing.Order
import Causeway.Proofs.Crossing.Solo
import Causeway.Proofs.Refusal
import Causeway.Proofs.World.Aside

/-!
# Resuming a deposit whose transfer is on the rail

A deposit may still wait for a transfer that the rail has made already. Resuming it leaves it waiting
or links it to that transfer, unless the order is given up before an abort is due: then the deposit
is stored as failed, though its transfer goes on.
-/

namespace Causeway.Crossing

open Deposit (Event Status)
open World (Alike Ordered)
open Retry (Timer)

variable {s : Settings} {w w' : World} {d : Deposit} {t : Rail.Transfer}

/-! ## The order -/

/-- The order for a deposit fails for good before an abort is due: the provider's checks refuse it,
or the failures at the rail use up its attempts. -/
def GivesUp (s : Settings) (w : World) (d : Deposit) : Prop :=
  (∃ e, s.provider.validate (request s d) = .error e) ∧ w.timer.Clear 0 ∨
    s.provider.validate (request s d) = .ok () ∧
      ∃ k, Retry.EndsAt (policy s).delayFor (policy s).maxAttempts 0 w.rail.createFailures w.timer k

theorem run_order (ht : w.rail.findReference? d.reference = some t) :
    ∃ x w', w.run (Action.retrying (policy s) (Provider.convert s.provider (request s d))).run =
        (.ok x, w') ∧ Alike w w' ∧ Ordered t (GivesUp s w d) w' x := by
  cases hv : s.provider.validate (request s d) with
  | ok u =>
      obtain ⟨x, w', hx, hw', hends⟩ := World.run_attempts (policy s).delayFor hv
        (policy s).retries 0 none w ht
      refine ⟨x, w', hx, hw', hends.congr ?_⟩
      have hretries : (policy s).retries + 1 = (policy s).maxAttempts := Retry.retries_succ s.retry
      simp [GivesUp, hv, hretries]
  | error e =>
      have hgives : GivesUp s w d ↔ w.timer.Clear 0 := by simp [GivesUp, hv]
      by_cases hclear : w.timer.Clear 0
      · have hgo := Timer.aborted_eq_false_iff.mpr hclear
        have hrefusal := ProviderSettings.refusal_of_validate hv
        have hx : w.run (Provider.convert s.provider (request s d)).ending =
            (.ok (.error e), w) := by
          unfold Provider.convert
          rw [hv]
          rfl
        refine ⟨.error e, w, ?_, .refl w, ?_⟩
        · exact Retry.run_attempts_of_final hgo hx (.inl hrefusal.isRetryable)
        · exact .refused e (hgives.mpr hclear) hrefusal.ne_cancelled hgo
      · have habort : w.timer.aborted = true := by
          simpa [← Timer.aborted_eq_false_iff] using hclear
        exact ⟨_, w, Retry.run_attempts_of_aborted habort, .refl w,
          .aborted _ (by rwa [hgives]) habort⟩

/-! ## One deposit -/

/-- The deposit is stored as it is and waits for a transfer; no other writer is scripted. -/
structure Waits (d : Deposit) (w : World) : Prop where
  stored : w.deposits.get? d.id = some d
  created : d.status = .created
  unlinked : d.transfer = none
  race : w.script.race = none

/-- The deposit waits as it was, or is on the rail under the transfer, which the index leads to it. -/
inductive Kept (d : Deposit) (transfer : String) (w : World) : Prop where
  | waiting (h : w.deposits.get? d.id = some d)
  | initiated (d' : Deposit) (h : w.deposits.get? d.id = some d') (hst : d'.status = .railInitiated)
      (ht : d'.transfer = some transfer) (hindex : w.deposits.byTransfer.get? transfer = some d.id)

def HasFailed (d : Deposit) (w : World) : Prop :=
  ∃ d', w.deposits.get? d.id = some d' ∧ d'.status = .failed

/-- The deposit has failed if `gone`, and is kept otherwise. -/
def Decided (d : Deposit) (transfer : String) (gone : Prop) (w : World) : Prop :=
  ¬ gone ∧ Kept d transfer w ∨ gone ∧ HasFailed d w

/-- Resuming the deposit gives it up: its order fails for good and the store accepts that. -/
def Abandons (s : Settings) (w : World) (d : Deposit) : Prop :=
  GivesUp s w d ∧ w.Accepts .failed

variable {transfer : String} {gone : Prop}

theorem Kept.not_failed (h : Kept d transfer w) (hst : d.status = .created) : ¬ HasFailed d w := by
  rintro ⟨d₁, hd₁, hfailed⟩
  cases h with
  | waiting h =>
      rw [h] at hd₁
      cases hd₁
      rw [hst] at hfailed
      cases hfailed
  | initiated d' h hst' =>
      rw [h] at hd₁
      cases hd₁
      rw [hst'] at hfailed
      cases hfailed

theorem Decided.iff (h : Decided d transfer gone w) (hst : d.status = .created) :
    (Kept d transfer w ↔ ¬ gone) ∧ (HasFailed d w ↔ gone) := by
  rcases h with ⟨hgone, hkept⟩ | ⟨hgone, hfailed⟩
  · have hnot := hkept.not_failed hst
    exact ⟨by simp [hgone, hkept], by simp [hgone, hnot]⟩
  · have hnot : ¬ Kept d transfer w := fun hkept => hkept.not_failed hst hfailed
    exact ⟨by simp [hgone, hnot], by simp [hgone, hfailed]⟩

theorem run_mark {e : Event} (h : d.Allows e) :
    w.run (mark d e).run =
      (.ok (.ok (d.after e (w.clock w.readings))), { w with readings := w.readings + 1 }) := by
  have happly : d.apply e (w.clock w.readings) = .ok (d.after e (w.clock w.readings)) :=
    Deposit.apply_eq_ok_iff.mpr ⟨h, rfl⟩
  unfold mark
  refine (World.run_seq (World.run_lift (World.run_request w .now))).trans ?_
  rw [happly]
  rfl

theorem run_initiated (transfer : String) (hd : Waits d w) :
    ∃ r w', w.run (do let d ← mark d (.railInitiated transfer); update d .created; pure d :
        Action Deposit).run = (.ok r, w') ∧ w'.script.race = none ∧ Kept d transfer w' := by
  rw [World.run_seq (run_mark (e := .railInitiated transfer) hd.created)]
  set d' := d.after (.railInitiated transfer) (w.clock w.readings) with hd'
  set w₁ : World := { w with readings := w.readings + 1 } with hw₁
  rcases World.updateDeposit_cases (w := w₁) hd.race d' .created with
    ⟨e, w', hupdate, hq⟩ | ⟨deposits, hu, hupdate⟩
  · have hrun : w₁.run (update d' .created).run = (.ok (.error e), w') :=
      (World.run_request w₁ _).trans hupdate
    refine ⟨_, w', World.run_seq_of_error hrun, hq.race hd.race, .waiting ?_⟩
    rw [hq.deposits]
    exact hd.stored
  · have hrun : w₁.run (update d' .created).run = (.ok (.ok ()), { w₁ with deposits }) :=
      (World.run_request w₁ _).trans hupdate
    obtain ⟨_, _, _, _, _, hdeposits⟩ := Store.Deposits.update_eq_ok hu
    refine ⟨.ok d', _, World.run_seq hrun, hd.race, .initiated d' ?_ rfl rfl ?_⟩
    · exact Store.Deposits.get?_update_self hu
    · rw [hdeposits]
      exact Table.get?_insert_self ..

theorem run_failed (e : Failure) (transfer : String) (hd : Waits d w) :
    ∃ r w', w.run (do
        let d ← mark d (.failed e.message)
        let _ ← (update d .created).result
        throw e : Action Deposit).run = (.ok r, w') ∧
      w'.script.race = none ∧ Decided d transfer (w.Accepts .failed) w' := by
  rw [World.run_seq (run_mark (e := .failed e.message) (.inl hd.created))]
  set d' := d.after (.failed e.message) (w.clock w.readings) with hd'
  set w₁ : World := { w with readings := w.readings + 1 } with hw₁
  by_cases haccept : w.Accepts .failed
  · have hown : w₁.deposits.otherOwner? d' = none := by
      simp [Store.Deposits.otherOwner?, hd', Deposit.after, hd.unlinked]
    have hu := Store.Deposits.update_of_unowned (d := d') hd.stored rfl hown
    rw [hd.created] at hu
    have hupdate := World.updateDeposit_of_none (w := w₁) hd.race haccept.1 haccept.2 hu
    have hrun := World.run_result ((World.run_request w₁ _).trans hupdate)
    refine ⟨.error e, _, World.run_seq hrun, hd.race, .inr ⟨haccept, d', ?_, rfl⟩⟩
    exact Store.Deposits.get?_update_self hu
  · obtain ⟨e', w', hupdate, hq⟩ :=
      World.updateDeposit_of_fault (w := w₁) (d := d') .created haccept
    have hrun := World.run_result ((World.run_request w₁ _).trans hupdate)
    refine ⟨.error e, w', World.run_seq hrun, hq.race hd.race, .inl ⟨haccept, .waiting ?_⟩⟩
    rw [hq.deposits]
    exact hd.stored

theorem run_startRail (hd : Waits d w) (ht : w.rail.findReference? d.reference = some t) :
    ∃ r w', w.run (startRail s d).run = (.ok r, w') ∧ w'.script.race = none ∧
      Decided d t.id (Abandons s w d) w' := by
  obtain ⟨x, w₁, hx, hw₁, hends⟩ := run_order (s := s) ht
  have hd₁ : Waits d w₁ :=
    ⟨by rw [hw₁.deposits]; exact hd.stored, hd.created, hd.unlinked, hw₁.race.trans hd.race⟩
  have hask : w₁.run (liftM (Program.request .isAborted) : Action Bool).run =
      (.ok (.ok w₁.timer.aborted), w₁) := World.run_lift (World.run_request w₁ .isAborted)
  unfold startRail
  rw [World.run_seq (World.run_result hx)]
  cases hends with
  | answered response hgo htid =>
      rw [← htid]
      obtain ⟨r, w', hr, hrace, hkept⟩ := run_initiated response.transfer hd₁
      exact ⟨r, w', hr, hrace, .inl ⟨fun h => hgo h.1, hkept⟩⟩
  | aborted e hgo habort =>
      dsimp only
      rw [World.run_seq hask, habort]
      simp only [Bool.or_true, if_true]
      exact ⟨_, w₁, rfl, hd₁.race, .inl ⟨fun h => hgo h.1, .waiting hd₁.stored⟩⟩
  | refused e hgo hne hon =>
      dsimp only
      rw [World.run_seq hask, hon]
      simp only [hne, decide_false, Bool.or_false, Bool.false_eq_true, if_false]
      obtain ⟨r, w', hr, hrace, hdecided⟩ := run_failed e t.id hd₁
      refine ⟨r, w', hr, hrace, ?_⟩
      rw [hw₁.accepts_iff] at hdecided
      rwa [Abandons, and_iff_right hgo]

theorem run_visitCreated (hd : Waits d w) (ht : w.rail.findReference? d.reference = some t)
    (now : Instant) (report : Report) :
    ∃ r w', w.run (visitCreated s now report d) = (.ok r, w') ∧ w'.script.race = none ∧
      Decided d t.id (isStale s now d ∧ Abandons s w d) w' := by
  unfold visitCreated
  cases hstale : isStale s now d with
  | false => exact ⟨report, w, rfl, hd.race, .inl ⟨by simp, .waiting hd.stored⟩⟩
  | true =>
      obtain ⟨r, w', hr, hrace, hdecided⟩ := run_startRail (s := s) hd ht
      simp only [Bool.not_true, Bool.false_eq_true, if_false, true_and]
      rw [World.run_bind_of hr]
      cases r with
      | ok d' => exact ⟨_, w', rfl, hrace, hdecided⟩
      | error e => exact ⟨_, w', rfl, hrace, hdecided⟩

/-! ## All deposits in turn -/

variable {id : Uuid}

theorem startRail_beside (hne : d.id ≠ id) : (startRail s d).run.Only (World.Beside id) :=
  only_startRail trivial trivial trivial (fun _ => trivial) fun _ hid => by
    rwa [World.Beside, hid]

theorem visitCreated_beside (now : Instant) (report : Report) (hne : d.id ≠ id) :
    (visitCreated s now report d).Only (World.Beside id) := by
  unfold visitCreated
  split
  · trivial
  · refine (startRail_beside hne).bind fun r => ?_
    cases r <;> trivial

/-- The visits of other deposits come to their end and pass the deposit by. -/
theorem run_visitAll_aside (now : Instant) {ds : List Deposit} (hne : ∀ d ∈ ds, d.id ≠ id)
    (report : Report) (hrace : w.script.race = none) :
    ∃ r w', w.run (visitAll (visitCreated s now) report ds) = (.ok r, w') ∧
      World.Aside id w w' := by
  have hstep : ∀ w' r, World.Beside id r → World.Aside id w w' →
      ∃ a w'', w'.perform r = (.ok a, w'') ∧ World.Aside id w w'' := by
    intro w' r hr hw'
    obtain ⟨a, w'', hperform, hw''⟩ := World.perform_beside hr (hw'.race hrace)
    exact ⟨a, w'', hperform, hw'.trans hw''⟩
  refine World.run_preserves hstep (only_visitAll trivial ?_ report) (.refl id w)
  exact fun report d hd => visitCreated_beside now report (hne d hd)

theorem run_visitAll_append (visit : Report → Deposit → Program Report) (report : Report)
    (before behind : List Deposit) (w : World) :
    w.run (visitAll visit report (before ++ behind)) =
      match w.run (visitAll visit report before) with
      | (.ok (report, true), w') => w'.run (visitAll visit report behind)
      | (.ok (report, false), w') => (.ok (report, false), w')
      | (.error o, w') => (.error o, w') := by
  induction before generalizing report w with
  | nil => rfl
  | cons d before ih =>
      have hcancelled := World.run_request w .isCancelled
      simp only [List.cons_append, visitAll]
      rw [World.run_bind_of hcancelled, World.run_bind_of hcancelled]
      cases w.timer.cancelled with
      | true => rfl
      | false =>
          simp only [Bool.false_eq_true, if_false]
          rw [World.run_bind, World.run_bind]
          rcases w.run (visit report d) with ⟨o | report', w'⟩
          · rfl
          · exact ih report' w'

/-- Visits that have stopped have stopped at a cancelled token. -/
theorem cancelled_of_stopped {visit : Report → Deposit → Program Report} {report r : Report}
    {ds : List Deposit} (h : w.run (visitAll visit report ds) = (.ok (r, false), w')) :
    w'.timer.cancelled := by
  induction ds generalizing report w with
  | nil => cases h
  | cons d ds ih =>
      have hcancelled := World.run_request w .isCancelled
      simp only [visitAll] at h
      rw [World.run_bind_of hcancelled] at h
      cases hc : w.timer.cancelled with
      | true =>
          rw [hc] at h
          cases h
          exact hc
      | false =>
          simp only [hc, Bool.false_eq_true, if_false] at h
          rw [World.run_bind] at h
          revert h
          rcases w.run (visit report d) with ⟨o | report', w₁⟩
          · intro h
            cases h
          · exact fun h => ih h

theorem Decided.aside (h : Decided d transfer gone w) (ha : World.Aside d.id w w') :
    Decided d transfer gone w' := by
  rcases h with ⟨hgone, hkept⟩ | ⟨hgone, d', hd', hst⟩
  · refine .inl ⟨hgone, ?_⟩
    cases hkept with
    | waiting h => exact .waiting (ha.stored.trans h)
    | initiated d' h hst ht hindex =>
        exact .initiated d' (ha.stored.trans h) hst ht (ha.linked hindex)
  · exact .inr ⟨hgone, d', ha.stored.trans hd', hst⟩

theorem GivesUp.clear (h : GivesUp s w d) : w.timer.Clear 0 := by
  rcases h with ⟨_, hclear⟩ | ⟨_, k, hk⟩
  · exact hclear
  · exact hk.clear_zero

/-- What becomes of the deposit is decided when its turn comes; where the visits stop before that,
it waits. -/
theorem run_visitAll_held (hd : Waits d w) (ht : w.rail.findReference? d.reference = some t)
    (now : Instant) (report : Report) {before behind : List Deposit}
    (hbefore : ∀ e ∈ before, e.id ≠ d.id) (hbehind : ∀ e ∈ behind, e.id ≠ d.id) :
    ∃ r w', w.run (visitAll (visitCreated s now) report (before ++ d :: behind)) = (.ok r, w') ∧
      Decided d t.id (isStale s now d ∧
        Abandons s (w.run (visitAll (visitCreated s now) report before)).2 d) w' := by
  obtain ⟨⟨report₁, whole⟩, w₁, hrun, ha⟩ := run_visitAll_aside (s := s) now hbefore report hd.race
  have hd₁ : Waits d w₁ :=
    ⟨ha.stored.trans hd.stored, hd.created, hd.unlinked, ha.race hd.race⟩
  have hspared : w₁.timer.cancelled → ¬ (isStale s now d ∧ Abandons s w₁ d) := by
    rintro hcancelled ⟨_, hgives, _⟩
    rw [Timer.not_cancelled_of_clear hgives.clear] at hcancelled
    cases hcancelled
  rw [run_visitAll_append, hrun]
  cases whole with
  | false =>
      refine ⟨_, w₁, rfl, .inl ⟨?_, .waiting hd₁.stored⟩⟩
      exact hspared (cancelled_of_stopped hrun)
  | true =>
      have hask := World.run_request w₁ .isCancelled
      simp only [visitAll]
      rw [World.run_bind_of hask]
      cases hcancelled : w₁.timer.cancelled with
      | true => exact ⟨_, w₁, rfl, .inl ⟨hspared hcancelled, .waiting hd₁.stored⟩⟩
      | false =>
          obtain ⟨report₂, w₂, hvisit, hrace, hdecided⟩ :=
            run_visitCreated (s := s) hd₁ (ha.held ht) now report₁
          obtain ⟨r, w', hrest, ha'⟩ := run_visitAll_aside (s := s) now hbehind report₂ hrace
          simp only [Bool.false_eq_true, if_false]
          rw [World.run_bind_of hvisit]
          exact ⟨r, w', hrest, hdecided.aside ha'⟩

/-! ## When a held transfer is kept -/

/-- A deposit that waits for a transfer which the rail has made fails if and only if its order is
given up and the store accepts that; otherwise it is kept. That is so when the deposit is resumed by
itself and when a sweep resumes all that wait, where the world at its turn decides. Every world that
a run reaches is sound (`Run.orderly`). -/
theorem held_transfer_kept_iff (hs : w.Sound) (hd : w.deposits.get? d.id = some d)
    (hst : d.status = .created) (ht : w.rail.findReference? d.reference = some t) :
    (∃ r w', w.run (startRail s d).run = (.ok r, w') ∧
        (Kept d t.id w' ↔ ¬ Abandons s w d) ∧ (HasFailed d w' ↔ Abandons s w d)) ∧
      ∀ now report before behind, w.deposits.withStatus .created = before ++ d :: behind →
        ∃ r turn r' w',
          w.run (visitAll (visitCreated s now) report before) = (.ok r, turn) ∧
          w.run (visitAll (visitCreated s now) report (w.deposits.withStatus .created)) =
            (.ok r', w') ∧
          (Kept d t.id w' ↔ ¬ (isStale s now d ∧ Abandons s turn d)) ∧
          (HasFailed d w' ↔ isStale s now d ∧ Abandons s turn d) := by
  have hwaits : Waits d w := ⟨hd, hst, (hs.deposits.coherent hd).transfer hst, hs.race⟩
  constructor
  · obtain ⟨r, w', hr, _, hdecided⟩ := run_startRail (s := s) hwaits ht
    exact ⟨r, w', hr, hdecided.iff hst⟩
  · intro now report before behind hds
    have hdistinct := Store.Deposits.nodup_withStatus hs.deposits .created
    rw [hds, List.map_append, List.map_cons, List.nodup_append, List.nodup_cons] at hdistinct
    obtain ⟨_, ⟨hbehind, _⟩, hbefore⟩ := hdistinct
    have hne : ∀ e ∈ before, e.id ≠ d.id := fun e he =>
      hbefore e.id (List.mem_map_of_mem he) d.id (by simp)
    have hne' : ∀ e ∈ behind, e.id ≠ d.id := by
      intro e he heq
      exact hbehind (heq ▸ List.mem_map_of_mem he)
    obtain ⟨r, turn, hturn, _⟩ := run_visitAll_aside (s := s) now hne report hs.race
    obtain ⟨r', w', hr', hdecided⟩ := run_visitAll_held (s := s) hwaits ht now report hne hne'
    rw [hturn] at hdecided
    rw [hds]
    exact ⟨r, turn, r', w', hturn, hr', hdecided.iff hst⟩

namespace Sample

/-- The rail has made the transfer of a deposit that still waits for it. -/
def interrupted : System :=
  System.alone { world := slowed } .standard
    (.initiate user account.railAccount amount "reference")

/-- The same later on, when failures may wait at the rail. -/
def stuck (failures : List Rail.ApiError) : World :=
  { interrupted.world with
    timer := {}
    rail := { interrupted.world.rail with createFailures := failures, listFailures := [] } }

def waiting : Deposit := .start deposit user account.id "reference" amount "USDC" .epoch

def made : Rail.Transfer :=
  Rail.Sandbox.opened (Settings.standard.provider.order (request .standard waiting)) (.ofNat 101)

def refusal : Rail.ApiError := .http 400 "bad request"

theorem sound_stuck (failures : List Rail.ApiError) : (stuck failures).Sound := by
  have hrun : Run .standard { world := slowed } interrupted := run_alone _ _
  have hsound := (hrun.orderly (System.orderly_of_idle ⟨Store.Deposits.Sound.empty, rfl⟩)).sound
  exact ⟨hsound.deposits, hsound.race⟩

end Sample

/-- With no failure at the rail the deposit is kept, and with one that may not be tried again it
fails. -/
theorem sample_is_resumed :
    (∃ r w', (Sample.stuck []).run (startRail .standard Sample.waiting).run = (.ok r, w') ∧
        Kept Sample.waiting Sample.made.id w') ∧
      ∃ r w', (Sample.stuck [Sample.refusal]).run (startRail .standard Sample.waiting).run =
        (.ok r, w') ∧ HasFailed Sample.waiting w' := by
  have hd : ∀ failures, (Sample.stuck failures).deposits.get? Sample.waiting.id =
      some Sample.waiting := fun _ => by
    change Sample.interrupted.world.deposits.get? Sample.waiting.id = some Sample.waiting
    decide
  have ht : ∀ failures, (Sample.stuck failures).rail.findReference? Sample.waiting.reference =
      some Sample.made := fun _ => by
    change Sample.interrupted.world.rail.findReference? Sample.waiting.reference = some Sample.made
    decide
  have hvalid : Settings.standard.provider.validate (request .standard Sample.waiting) = .ok () :=
    rfl
  constructor
  · obtain ⟨r, w', hr, hkept, _⟩ :=
      (held_transfer_kept_iff (s := .standard) (Sample.sound_stuck []) (hd _) rfl (ht _)).1
    refine ⟨r, w', hr, hkept.mpr ?_⟩
    rintro ⟨⟨⟨_, h⟩, _⟩ | ⟨_, _, hk⟩, _⟩
    · rw [hvalid] at h
      cases h
    · exact Retry.not_endsAt_nil hk
  · obtain ⟨r, w', hr, _, hfailed⟩ :=
      (held_transfer_kept_iff (s := .standard) (Sample.sound_stuck [Sample.refusal]) (hd _) rfl
        (ht _)).1
    refine ⟨r, w', hr, hfailed.mpr ⟨.inr ⟨hvalid, 0, ?_⟩, by decide, by decide⟩⟩
    exact ⟨by decide, by simp, ⟨_, rfl, .inl (by decide)⟩, fun _ h => nomatch h⟩

/-- So a sweep may store a deposit as failed whose transfer the rail holds. -/
theorem held_transfer_lost :
    ¬ ∀ (s : Settings) (w : World) (d : Deposit) (t : Rail.Transfer) (now : Instant), w.Sound →
      w.deposits.get? d.id = some d → d.status = .created →
      w.rail.findReference? d.reference = some t → ¬ HasFailed d (w.run (sweep s now).run).2 := by
  intro h
  refine h .standard (Sample.stuck [Sample.refusal]) Sample.waiting Sample.made Sample.secondDay
    (Sample.sound_stuck _) (by decide) rfl (by decide) ?_
  have hfailed : (((Sample.stuck [Sample.refusal]).run
      (sweep .standard Sample.secondDay).run).2.deposits.get? Sample.waiting.id).map (·.status) =
        some .failed := by decide
  exact Option.map_eq_some_iff.mp hfailed

end Causeway.Crossing
