import Causeway.Proofs.Crossing.Straight

/-!
# Sweeps that find nothing to do

A deposit is at rest when it has come to its end and is counted, or waits for a transfer that is
pending. Where all deposits are at rest, a sweep asks after those transfers and changes nothing
(`run_sweep_idle`).
-/

namespace Causeway.Crossing

open Rail (Transfer)
open World (Unmoved)

variable {s : Settings} {w w' : World} {d : Deposit} {transfer : String}

/-- Each transfer under the id is pending. -/
def Pending (transfer : String) (w : World) : Prop :=
  ∀ t ∈ w.rail.transfers, t.id = transfer → t.state = .pending

inductive AtRest (w : World) (d : Deposit) : Prop where
  | failed (hst : d.status = .failed)
  | counted (hst : d.status = .brokerFunded) (hcount : d.usageRecordedAt ≠ none)
  | waiting (transfer : String) (hst : d.status = .railInitiated)
      (ht : d.transfer = some transfer) (hpending : Pending transfer w)

theorem Pending.unmoved (h : Pending transfer w) (hw : Unmoved w w') : Pending transfer w' := by
  unfold Pending
  rw [hw.transfers]
  exact h

theorem AtRest.unmoved (h : AtRest w d) (hw : Unmoved w w') : AtRest w' d := by
  cases h with
  | failed hst => exact .failed hst
  | counted hst hcount => exact .counted hst hcount
  | waiting transfer hst ht hpending => exact .waiting transfer hst ht (hpending.unmoved hw)

/-! ## The search for a pending transfer -/

/-- What the search can find out. -/
inductive Sought : Except Stop Conversion.Response → Prop where
  | pending (response : Conversion.Response) (h : response.status = .pending) : Sought (.ok response)
  | missing (entity : Entity) (id : String) : Sought (.error (.failure (.notFound entity id)))

theorem run_search_pending (hw : w.Plain) (hpending : Pending transfer w)
    (size pages offset : Nat) :
    ∃ r w', w.run (Provider.searchFrom size transfer pages offset).run = (.ok r, w') ∧ Sought r ∧
      w'.Plain ∧ Unmoved w w' := by
  induction pages generalizing w offset with
  | zero => exact ⟨_, w, rfl, .missing .providerTransaction transfer, hw, .refl w⟩
  | succ pages ih =>
      let v := w.listed size offset
      have hv : v.Plain := hw.congr rfl rfl rfl rfl rfl
      have hmoved : Unmoved w v := { Unmoved.refl w with }
      rw [Provider.searchFrom, World.run_seq (run_listTransfers hw size offset)]
      cases hfind : (w.rail.page size offset).find? (·.id = transfer) with
      | some t =>
          have hmem : t ∈ w.rail.transfers := List.mem_reverse.mp
            (List.mem_of_mem_drop (List.mem_of_mem_take (List.mem_of_find?_eq_some hfind)))
          have hid : t.id = transfer := by simpa using List.find?_some hfind
          have hstatus : (t.response (t.direction .stablecoinToFiat)).status = .pending := by
            simp [Transfer.response, hpending t hmem hid, Rail.State.conversionStatus]
          exact ⟨_, v, rfl, .pending _ hstatus, hv, hmoved⟩
      | none =>
          dsimp only
          split
          · exact ⟨_, v, rfl, .missing .providerTransaction transfer, hv, hmoved⟩
          · obtain ⟨r, w', hrun, hr, hw', hmoved'⟩ := ih hv (hpending.unmoved hmoved)
              (offset + (w.rail.page size offset).length)
            exact ⟨r, w', hrun, hr, hw', hmoved.trans hmoved'⟩

theorem run_status_pending (hw : w.Plain) (hpending : Pending transfer w) :
    ∃ r w', w.run (Action.retrying (policy s) (Provider.status s.provider transfer)).run =
        (.ok r, w') ∧ (∀ response, r = .ok response → response.status = .pending) ∧
      w'.Plain ∧ Unmoved w w' := by
  obtain ⟨r, w', hrun, hr, hw', hmoved⟩ :=
    run_search_pending hw hpending s.provider.listPageSize (twoTo 64) 0
  cases hr with
  | pending response h =>
      refine ⟨_, w', hw.retrying_ok hrun, ?_, hw', hmoved⟩
      rintro _ ⟨⟩
      exact h
  | missing entity id =>
      exact ⟨_, w', hw.retrying_error hrun rfl, nofun, hw', hmoved⟩

/-- News of a transfer that is still pending changes nothing. -/
theorem run_callback_pending (hw : w.Plain) (hpending : Pending transfer w) :
    ∃ r w', w.run (callback s transfer).run = (.ok r, w') ∧ w'.Plain ∧ Unmoved w w' := by
  have hfind : w.run (Action.ask (Program.request (.depositByTransfer transfer))).run =
      (.ok (.ok (w.deposits.getByTransfer? transfer)), w) :=
    World.run_ask w (World.look_of_faultless hw.calm.faultless _ _)
  unfold callback
  rw [World.run_seq hfind]
  cases w.deposits.getByTransfer? transfer with
  | none => exact ⟨_, w, rfl, hw, .refl w⟩
  | some d =>
      dsimp only
      split
      · exact ⟨_, w, rfl, hw, .refl w⟩
      · obtain ⟨r, w', hrun, hr, hw', hmoved⟩ := run_status_pending (s := s) hw hpending
        cases r with
        | error e => exact ⟨_, w', World.run_seq_of_error hrun, hw', hmoved⟩
        | ok response =>
            rw [World.run_seq hrun, hr response rfl]
            exact ⟨_, w', rfl, hw', hmoved⟩

/-! ## The sweep -/

theorem run_visitInitiated_idle (hw : w.Plain)
    (hd : ∀ transfer, d.transfer = some transfer → Pending transfer w) (report : Report) :
    ∃ report' w', w.run (visitInitiated s report d) = (.ok report', w') ∧ w'.Plain ∧
      Unmoved w w' := by
  unfold visitInitiated
  cases ht : d.transfer with
  | none => exact ⟨_, w, rfl, hw, .refl w⟩
  | some transfer =>
      obtain ⟨r, w', hrun, hw', hmoved⟩ := run_callback_pending (s := s) hw (hd transfer ht)
      dsimp only
      rw [World.run_bind_of hrun]
      split <;> exact ⟨_, w', rfl, hw', hmoved⟩

theorem run_visits_idle {ds : List Deposit} (hw : w.Plain)
    (hds : ∀ d ∈ ds, ∀ transfer, d.transfer = some transfer → Pending transfer w)
    (report : Report) :
    ∃ r w', w.run (visitAll (visitInitiated s) report ds) = (.ok r, w') ∧ w'.Plain ∧
      Unmoved w w' := by
  induction ds generalizing report w with
  | nil => exact ⟨_, w, rfl, hw, .refl w⟩
  | cons d ds ih =>
      have hcancelled := World.run_request w .isCancelled
      unfold visitAll
      rw [World.run_bind_of hcancelled]
      split
      · exact ⟨_, w, rfl, hw, .refl w⟩
      · obtain ⟨report', v, hrun, hv, hmoved⟩ :=
          run_visitInitiated_idle (s := s) hw (hds d (by simp)) report
        have hds' : ∀ d' ∈ ds, ∀ transfer, d'.transfer = some transfer → Pending transfer v :=
          fun d' hd' transfer ht => (hds d' (by simp [hd']) transfer ht).unmoved hmoved
        obtain ⟨r, w', hrun', hw', hmoved'⟩ := ih hv hds' report'
        rw [World.run_bind_of hrun]
        exact ⟨r, w', hrun', hw', hmoved.trans hmoved'⟩

theorem run_depositsIn (hw : w.Plain) (status : Deposit.Status) :
    w.run (depositsIn status).run = (.ok (.ok (w.deposits.withStatus status)), w) :=
  World.run_ask w (World.look_of_faultless hw.calm.faultless _ _)

/-- Where all deposits are at rest, a sweep comes to its end and leaves everything as it was. -/
theorem run_sweep_idle (hw : w.Plain) (hs : w.deposits.Sound)
    (hrest : ∀ id d, w.deposits.get? id = some d → AtRest w d) (now : Instant) :
    ∃ report w', w.run (sweep s now).run = (.ok (.ok report), w') ∧ Unmoved w w' := by
  have hstored : ∀ {status d}, d ∈ w.deposits.withStatus status → AtRest w d ∧ d.status = status :=
    fun hd => ⟨hrest _ _ ((Store.Deposits.mem_withStatus hs).mp hd).1,
      ((Store.Deposits.mem_withStatus hs).mp hd).2⟩
  have hnone : ∀ {status}, (∀ d, AtRest w d → d.status ≠ status) →
      w.deposits.withStatus status = [] := fun h =>
    List.eq_nil_iff_forall_not_mem.mpr fun d hd => h d (hstored hd).1 (hstored hd).2
  have hcompleted : w.deposits.withStatus .railCompleted = [] :=
    hnone fun d hd => by cases hd <;> simp_all
  have hcreated : w.deposits.withStatus .created = [] :=
    hnone fun d hd => by cases hd <;> simp_all
  have hwaiting : ∀ d ∈ w.deposits.withStatus .railInitiated, ∀ transfer,
      d.transfer = some transfer → Pending transfer w := by
    intro d hd transfer ht
    obtain ⟨hd, hst⟩ := hstored hd
    cases hd <;> simp_all
  obtain ⟨⟨report, whole⟩, v, hrun, hv, hmoved⟩ :=
    run_visits_idle (s := s) hw hwaiting {}
  have hcounted : (v.deposits.withStatus .brokerFunded).filter (·.usageRecordedAt.isNone) = [] := by
    rw [hmoved.deposits, List.filter_eq_nil_iff]
    intro d hd
    obtain ⟨hd, hst⟩ := hstored hd
    cases hd <;> simp_all
  unfold sweep
  rw [World.run_seq (run_depositsIn hw _), hcompleted, World.run_seq (World.run_lift rfl)]
  dsimp only
  rw [if_neg (by simp)]
  rw [World.run_seq (run_depositsIn hw _), hcreated, World.run_seq (World.run_lift rfl)]
  dsimp only
  rw [if_neg (by simp)]
  rw [World.run_seq (run_depositsIn hw _), World.run_seq (World.run_lift hrun)]
  dsimp only
  split
  · exact ⟨report, v, rfl, hmoved⟩
  · rw [World.run_seq (run_depositsIn hv _), hcounted]
    exact ⟨report, v, rfl, hmoved⟩

end Causeway.Crossing
