import Causeway.Proofs.Crossing.Convergence
import Causeway.Proofs.Crossing.Outcome

/-!
# What a sweep reports has happened

A sweep that is alone reports as many deposits funded, resumed and failed as have come to that while
it ran, however many calls fail and wherever it is cancelled. Each visit accounts for what it makes
of its deposit (`Accounts`), and what becomes of a deposit in several visits is the sum of what
each makes of it (`Additive`).
-/

namespace Causeway

open Deposit (Status)

/-! ## What becomes of a deposit -/

namespace Deposit

variable {d d' d'' : Deposit}

/-- The deposit has become funded. -/
def becameFunded (d d' : Deposit) : Bool := d.status ≠ .brokerFunded ∧ d'.status = .brokerFunded

/-- A deposit at its beginning has got a transfer. -/
def gotTransfer (d d' : Deposit) : Bool :=
  d.status = .created ∧ d.transfer.isNone ∧ d'.transfer.isSome

/-- The deposit has failed and has a transfer. -/
def failedOnRail (d d' : Deposit) : Bool :=
  d.status ≠ .failed ∧ d'.status = .failed ∧ d'.transfer.isSome

/-- What becomes of a deposit is the sum of what the parts of its way make of it. -/
def Additive (p : Deposit → Deposit → Bool) : Prop :=
  ∀ ⦃d d' d''⦄, d.Coherent → d.Leads d' → d'.Leads d'' →
    (p d d'').toNat = (p d d').toNat + (p d' d'').toNat

theorem Additive.self {p : Deposit → Deposit → Bool} (hp : Additive p) (hc : d.Coherent) :
    p d d = false := by
  have h := hp hc .refl .refl
  cases hpd : p d d with
  | false => rfl
  | true => simp [hpd] at h

theorem additive_becameFunded : Additive becameFunded := by
  intro d d' d'' _ hl hl'
  by_cases hd : d.status = .brokerFunded
  · have hd' := hl.status_funded hd
    simp [becameFunded, hd, hd']
  · by_cases hd' : d'.status = .brokerFunded
    · simp [becameFunded, hd, hd', hl'.status_funded hd']
    · simp [becameFunded, hd, hd']

theorem Leads.eq_of_failed (h : d.Leads d') (hc : d.Coherent) (hd : d.status = .failed) : d' = d :=
  (h.extends hc).failed hd

theorem additive_failedOnRail : Additive failedOnRail := by
  intro d d' d'' hc hl hl'
  by_cases hd : d.status = .failed
  · obtain rfl := hl.eq_of_failed hc hd
    simp [failedOnRail, hd]
  · by_cases hd' : d'.status = .failed
    · obtain rfl := hl'.eq_of_failed (hl.coherent hc) hd'
      simp [failedOnRail, hd']
    · simp [failedOnRail, hd, hd']

theorem Leads.created (h : d.Leads d') (hd' : d'.status = .created) : d.status = .created := by
  have hle := h.rank_le
  rw [hd'] at hle
  cases hd : d.status <;> simp [hd, Status.rank] at hle ⊢

/-- A deposit leaves its beginning for the rail, with a transfer, or fails. -/
theorem Leads.of_created (h : d.Leads d') (hc : d.Coherent) (hd : d.status = .created) :
    d'.status = .created ∨ d'.status = .failed ∨ d'.transfer.isSome := by
  induction h with
  | refl => exact .inl hd
  | @tail b c hb hm ih =>
      have hbc := Leads.coherent hb hc
      have hext := Leads.extends (.single hm) hbc
      rcases ih with hst | hst | ht
      · obtain ⟨e, now, ha, -⟩ := hm
        obtain ⟨hallows, rfl⟩ := apply_eq_ok_iff.mp ha
        cases e with
        | railInitiated t => exact .inr (.inr rfl)
        | failed reason => exact .inr (.inl rfl)
        | _ => exact nomatch hst.symm.trans hallows
      · rw [hext.failed hst]
        exact .inr (.inl hst)
      · obtain ⟨t, ht⟩ := Option.isSome_iff_exists.mp ht
        exact .inr (.inr (by rw [hext.transfer t ht]; rfl))

theorem additive_gotTransfer : Additive gotTransfer := by
  intro d d' d'' hc hl hl'
  have hc' := hl.coherent hc
  by_cases hd : d.status = .created
  · by_cases hd' : d'.status = .created
    · simp [gotTransfer, hd, hd', hc.transfer hd, hc'.transfer hd']
    · -- A transfer that the deposit does not have by now it never gets.
      have htransfer : d''.transfer.isSome = d'.transfer.isSome := by
        rcases (hl.of_created hc hd).resolve_left hd' with hfailed | ht
        · rw [hl'.eq_of_failed hc' hfailed]
        · obtain ⟨t, ht⟩ := Option.isSome_iff_exists.mp ht
          rw [(hl'.extends hc').transfer t ht, ht]
      simp [gotTransfer, hd, hd', htransfer]
  · have hd' : d'.status ≠ .created := fun h => hd (hl.created h)
    simp [gotTransfer, hd, hd']

end Deposit

/-! ## What becomes of all deposits -/

namespace Store.Deposits

open Deposit (Additive)

variable {s s' s'' : Deposits} {p : Deposit → Deposit → Bool} {d₀ d d' : Deposit}

/-- How many deposits of `s` are in `s'` as `p` says. -/
def changed (p : Deposit → Deposit → Bool) (s s' : Deposits) : Nat :=
  s.byId.values.countP fun d => (s'.get? d.id).any (p d)

theorem changed_self (hs : s.Sound) (hp : Additive p) : s.changed p s = 0 := by
  refine List.countP_eq_zero.mpr fun d hd => ?_
  obtain ⟨id, hd⟩ := (Table.mem_values_iff hs.distinct).mp hd
  have hd' : s.get? d.id = some d := by rw [hs.id_eq hd]; exact hd
  simp [hd', hp.self (hs.coherent hd')]

/-- Where one deposit changes, what it has become since `s` decides. -/
theorem changed_of_moved (hs : s.Sound) (hp : Additive p) (hd₀ : s.get? d.id = some d₀)
    (hl : d₀.Leads d) (hd : s'.get? d.id = some d) (hd' : s''.get? d.id = some d')
    (hl' : d.Leads d') (hothers : ∀ id, id ≠ d.id → s''.get? id = s'.get? id) :
    s.changed p s'' = s.changed p s' + (p d d').toNat := by
  have hid : d₀.id = d.id := hs.id_eq hd₀
  obtain ⟨before, behind, hsplit⟩ :=
    List.append_of_mem ((Table.mem_values_iff hs.distinct).mpr ⟨_, hd₀⟩)
  have hdistinct := hs.distinct
  rw [← map_id_values hs, hsplit, List.map_append, List.map_cons, List.nodup_append,
    List.nodup_cons] at hdistinct
  obtain ⟨-, ⟨hbehind, -⟩, hbefore⟩ := hdistinct
  have hsame : ∀ ds : List Deposit, (∀ e ∈ ds, e.id ≠ d.id) →
      (ds.countP fun e => (s''.get? e.id).any (p e)) =
        ds.countP fun e => (s'.get? e.id).any (p e) := fun ds hds =>
    List.countP_congr fun e he => by rw [hothers e.id (hds e he)]
  have hleft := hsame before fun e he heq =>
    hbefore _ (List.mem_map_of_mem he) _ (List.mem_cons_self ..) (heq.trans hid.symm)
  have hright := hsame behind fun e he heq =>
    hbehind (hid.trans heq.symm ▸ List.mem_map_of_mem he)
  have hadd := hp (hs.coherent hd₀) hl hl'
  have hone : ∀ b : Bool, (if b then 1 else 0) = b.toNat := fun b => by cases b <;> rfl
  simp only [changed, hsplit, List.countP_append, List.countP_cons, hleft, hright, hid, hd, hd',
    Option.any_some, hone]
  omega

end Store.Deposits

namespace Crossing

open Deposit (becameFunded gotTransfer failedOnRail Additive additive_becameFunded
  additive_gotTransfer additive_failedOnRail)
open World (Intact Moved Unwritten)

variable {s : Settings} {now : Instant} {w₀ w w' : World} {d d' : Deposit} {stage : Status}
  {report report' : Report} {ds : List Deposit}

/-! ## Visits -/

/-- The report has grown by what has become of the deposit. -/
structure Report.Adds (report report' : Report) (d d' : Deposit) : Prop where
  funded : report'.funded = report.funded + (becameFunded d d').toNat
  resumed : report'.resumed = report.resumed + (gotTransfer d d').toNat
  failed : report'.failed = report.failed + (failedOnRail d d').toNat

/-- A visit has changed at most its deposit, and the report says what it has made of it. -/
def Accounts (d : Deposit) (w : World) (report report' : Report) (w' : World) : Prop :=
  ∃ d', Moved d d' w w' ∧ report.Adds report' d d'

/-- A visit that leaves its deposit as it is counts nothing of it. -/
theorem accounts_of_same (hs : w.Sound) (hmoved : Moved d d w w')
    (hfunded : report'.funded = report.funded) (hresumed : report'.resumed = report.resumed)
    (hfailed : report'.failed = report.failed) : Accounts d w report report' w' := by
  have hc := hs.deposits.coherent hmoved.before
  exact ⟨d, hmoved, by simp [additive_becameFunded.self hc, hfunded],
    by simp [additive_gotTransfer.self hc, hresumed],
    by simp [additive_failedOnRail.self hc, hfailed]⟩

theorem visitFunding_accounts (hs : w.Sound) (hd : w.deposits.get? d.id = some d)
    (hst : d.status = .railCompleted) :
    lone.Keeps (visitFunding s report d) (Accounts d w report) w := by
  refine Rules.Yields.keeps (Rules.Yields.mono (fund_lone s d w) ?_ fun e w' h =>
    accounts_of_same hs (h.moved hd) rfl rfl rfl)
  rintro d' w' ⟨cur, hid, -, hmoved, hfunded, -⟩
  -- What has been funded is what is stored, so it is the deposit itself.
  have hcur := hmoved.before
  rw [hid, hd] at hcur
  cases hcur
  exact ⟨d', hmoved, by simp [becameFunded, hst, hfunded], by simp [gotTransfer, hst],
    by simp [failedOnRail, hfunded]⟩

theorem visitCreated_accounts (hs : w.Sound) (hd : w.deposits.get? d.id = some d)
    (hst : d.status = .created) :
    lone.Keeps (visitCreated s now report d) (Accounts d w report) w := by
  have hnone := (hs.deposits.coherent hd).transfer hst
  unfold visitCreated
  split
  · exact accounts_of_same hs ((Unwritten.refl w).moved hd) rfl rfl rfl
  · refine Rules.Yields.keeps (Rules.Yields.mono (startRail_lone s hd hst) ?_ ?_)
    · rintro d' w' ⟨hmoved, hst', htransfer⟩
      exact ⟨d', hmoved, by simp [becameFunded, hst'],
        by simp [gotTransfer, hst, hnone, htransfer], by simp [failedOnRail, hst']⟩
    · rintro e w' ⟨d', hmoved, htransfer, rfl | hfailed⟩
      · exact accounts_of_same hs hmoved rfl rfl rfl
      · rw [hnone] at htransfer
        exact ⟨d', hmoved, by simp [becameFunded, hfailed], by simp [gotTransfer, htransfer],
          by simp [failedOnRail, htransfer]⟩

theorem visitInitiated_accounts (hs : w.Sound) (hd : w.deposits.get? d.id = some d)
    (hst : d.status = .railInitiated) :
    lone.Keeps (visitInitiated s report d) (Accounts d w report) w := by
  unfold visitInitiated
  cases htransfer : d.transfer with
  | none => exact accounts_of_same hs ((Unwritten.refl w).moved hd) rfl rfl rfl
  | some transfer =>
      have hfound : w.deposits.getByTransfer? transfer = some d := by
        unfold Store.Deposits.getByTransfer?
        rw [hs.deposits.linked hd htransfer]
        exact hd
      refine Rules.Yields.keeps (Rules.Yields.mono (callback_lone s transfer w) ?_ fun e w' h =>
        accounts_of_same hs (h.toUnwritten.moved hd) rfl rfl rfl)
      intro out w' hacted
      cases out with
      | unmatched => exact accounts_of_same hs (Unwritten.moved hacted hd) rfl rfl rfl
      | unchanged status => exact accounts_of_same hs (Unwritten.moved hacted hd) rfl rfl rfl
      | advanced before target =>
          obtain ⟨x, d', hx, -, hmoved, rfl, htransfer'⟩ := hacted
          -- The transfer belongs to the deposit that is visited.
          rw [hfound] at hx
          cases hx
          rw [htransfer] at htransfer'
          cases hst' : d'.status <;>
            exact ⟨d', hmoved, by simp [becameFunded, hst, hst'], by simp [gotTransfer, hst],
              by simp [failedOnRail, hst, hst', htransfer']⟩

theorem visitFunded_accounts (hs : w.Sound) (hd : w.deposits.get? d.id = some d)
    (hst : d.status = .brokerFunded) :
    lone.Keeps (visitFunded report d) (Accounts d w report) w := by
  refine Rules.Yields.keeps (Rules.Yields.mono (recordUsage_lone hd) ?_ fun e w' hmoved =>
    accounts_of_same hs hmoved rfl rfl rfl)
  rintro d' w' ⟨hmoved, hstanding⟩
  have hst' := (Deposit.status_of_standing hstanding).trans hst
  exact ⟨d', hmoved, by simp [becameFunded, hst], by simp [gotTransfer, hst],
    by simp [failedOnRail, hst']⟩

/-! ## The phases -/

/-- No deposit has been added since `w₀`, and the report says what has become of those that were
there. -/
structure Reports (w₀ : World) (report : Report) (w : World) : Prop where
  old : ∀ ⦃id d⦄, w.deposits.get? id = some d →
    ∃ d₀, w₀.deposits.get? id = some d₀ ∧ d₀.Leads d
  funded : report.funded = w₀.deposits.changed becameFunded w.deposits
  resumed : report.resumed = w₀.deposits.changed gotTransfer w.deposits
  failed : report.failed = w₀.deposits.changed failedOnRail w.deposits

theorem Reports.start (hs : w₀.Sound) : Reports w₀ {} w₀ where
  old _ d hd := ⟨d, hd, .refl⟩
  funded := (Store.Deposits.changed_self hs.deposits additive_becameFunded).symm
  resumed := (Store.Deposits.changed_self hs.deposits additive_gotTransfer).symm
  failed := (Store.Deposits.changed_self hs.deposits additive_failedOnRail).symm

theorem reports_stable (w₀ : World) (report : Report) : lone.Stable (Reports w₀ report) := by
  rintro w w' hw ⟨hold, hfunded, hresumed, hfailed⟩
  constructor <;> rw [hw.deposits] <;> assumption

theorem Reports.visited (h : Reports w₀ report w) (hs : w₀.Sound)
    (hvisit : Accounts d w report report' w') : Reports w₀ report' w' := by
  obtain ⟨d', hmoved, hadds⟩ := hvisit
  obtain ⟨d₀, hd₀, hl⟩ := h.old hmoved.before
  have hchanged {p : Deposit → Deposit → Bool} (hp : Additive p) :=
    Store.Deposits.changed_of_moved hs.deposits hp hd₀ hl hmoved.before hmoved.after hmoved.leads
      hmoved.others
  refine ⟨fun id x hx => ?_, ?_, ?_, ?_⟩
  · by_cases hid : id = d.id
    · subst hid
      rw [hmoved.after] at hx
      cases hx
      exact ⟨d₀, hd₀, hl.trans hmoved.leads⟩
    · rw [hmoved.others id hid] at hx
      exact h.old hx
  · rw [hchanged additive_becameFunded, hadds.funded, h.funded]
  · rw [hchanged additive_gotTransfer, hadds.resumed, h.resumed]
  · rw [hchanged additive_failedOnRail, hadds.failed, h.failed]

/-- The deposits are stored as they are listed, each once. -/
structure Listed (stage : Status) (ds : List Deposit) (w : World) : Prop where
  stored : ∀ d ∈ ds, w.deposits.get? d.id = some d ∧ d.status = stage
  distinct : (ds.map (·.id)).Nodup

theorem Listed.filter (h : Listed stage ds w) (p : Deposit → Bool) :
    Listed stage (ds.filter p) w :=
  ⟨fun d hd => h.stored d (List.mem_filter.mp hd).1, h.distinct.sublist (List.filter_sublist.map _)⟩

theorem Listed.tail (h : Listed stage (d :: ds) w) (hmoved : Moved d d' w w') :
    Listed stage ds w' := by
  have hdistinct := h.distinct
  rw [List.map_cons, List.nodup_cons] at hdistinct
  refine ⟨fun e he => ?_, hdistinct.2⟩
  rw [hmoved.others e.id fun heq => hdistinct.1 (heq ▸ List.mem_map_of_mem he)]
  exact h.stored e (List.mem_cons_of_mem _ he)

theorem depositsIn_lone (stage : Status) (w : World) :
    lone.Yields (depositsIn stage) (fun ds w' => Intact w w' ∧ Listed stage ds w')
      (fun _ _ => True) w := by
  refine Rules.Yields.ask (Rules.Keeps.request fun w' hw hs => ⟨trivial, fun r hr => ?_⟩)
  cases r with
  | error e => trivial
  | ok ds =>
      obtain ⟨rfl, hsame⟩ := World.look_ok hr
      rw [show (w'.perform (.depositsIn stage)).2 = w' from hsame]
      exact ⟨hw, fun d hd => (Store.Deposits.mem_withStatus hs.deposits).mp hd,
        Store.Deposits.nodup_withStatus hs.deposits stage⟩

/-- What the visits have made of their deposits is reported, also where a cancellation has ended
them early. -/
theorem visitAll_reports {visit : Report → Deposit → Program Report} (hs₀ : w₀.Sound)
    (hvisit : ∀ report d w, w.Sound → w.deposits.get? d.id = some d → d.status = stage →
      lone.Keeps (visit report d) (Accounts d w report) w)
    (hds : Listed stage ds w) (h : Reports w₀ report w) :
    lone.Keeps (visitAll visit report ds) (fun r => Reports w₀ r.1) w := by
  induction ds generalizing report w with
  | nil => exact h
  | cons d ds ih =>
      refine Rules.Keeps.bind (Rules.Keeps.request fun w' hw hs => ⟨trivial, fun cancelled _ => ?_⟩)
      replace h := reports_stable w₀ report hw h
      obtain ⟨hd, hst⟩ := hds.stored d (by simp)
      rw [← hw.deposits] at hd
      cases cancelled with
      | true => exact h
      | false =>
          refine Rules.Keeps.bind (Rules.Keeps.mono (hvisit report d w' hs hd hst) ?_)
          rintro report' w'' ⟨d', hmoved, hadds⟩
          exact ih (hds.tail (hw.toUnwritten.before_moved hmoved))
            (h.visited hs₀ ⟨d', hmoved, hadds⟩)

/-- A phase reports what its visits have made of the deposits, and so does what comes after it. -/
theorem phase_reports {visit : Report → Deposit → Program Report}
    {f : Report × Bool → Action Report} (hs₀ : w₀.Sound)
    (hvisit : ∀ report d w, w.Sound → w.deposits.get? d.id = some d → d.status = stage →
      lone.Keeps (visit report d) (Accounts d w report) w)
    (hf : ∀ report w, Reports w₀ report w →
      lone.Yields (f (report, true)) (Reports w₀) (fun _ _ => True) w)
    (hstop : ∀ report, f (report, false) = pure report) (pick : List Deposit → List Deposit)
    (hpick : ∀ ds w, Listed stage ds w → Listed stage (pick ds) w) (h : Reports w₀ report w) :
    lone.Yields (depositsIn stage >>= fun ds => liftM (visitAll visit report (pick ds)) >>= f)
      (Reports w₀) (fun _ _ => True) w := by
  refine Rules.Yields.next (depositsIn_lone stage w) ?_
  rintro ds w₁ ⟨hw, hds⟩
  refine Rules.Yields.next (Rules.Yields.lift (visitAll_reports hs₀ hvisit (hpick ds w₁ hds)
    (reports_stable w₀ report hw h))) ?_
  rintro ⟨report, whole⟩ w₂ h₂
  cases whole with
  | true => exact hf report w₂ h₂
  | false =>
      rw [hstop]
      exact Rules.Yields.pure h₂

theorem sweep_reports (hs₀ : w₀.Sound) (h : Reports w₀ {} w) :
    lone.Yields (sweep s now) (Reports w₀) (fun _ _ => True) w := by
  refine phase_reports hs₀ (fun _ _ _ => visitFunding_accounts) (fun report w h => ?_)
    (fun _ => rfl) id (fun _ _ => id) h
  refine phase_reports hs₀ (fun _ _ _ => visitCreated_accounts) (fun report w h => ?_)
    (fun _ => rfl) id (fun _ _ => id) h
  refine phase_reports hs₀ (fun _ _ _ => visitInitiated_accounts) (fun report w h => ?_)
    (fun _ => rfl) id (fun _ _ => id) h
  refine phase_reports hs₀ (fun _ _ _ => visitFunded_accounts) (fun report w h => ?_)
    (fun _ => rfl) (List.filter _) (fun _ _ hds => hds.filter _) h
  exact Rules.Yields.pure h

/-- A sweep that no other operation meets adds no deposit. Whatever fails and whenever it is
cancelled, it reports as many deposits funded, resumed and failed as have been funded, have got
their transfers and have failed with one since it began. -/
theorem sweep_reports_what_happened {σ : System} (h : Reached s w) (hrun : Run s { world := w } σ)
    (hdone : σ.running = [⟨.sweep now, .done (.sweep (.ok report))⟩]) :
    (∀ id d, σ.world.deposits.get? id = some d → ∃ d₀, w.deposits.get? id = some d₀) ∧
      report.funded = w.deposits.changed becameFunded σ.world.deposits ∧
      report.resumed = w.deposits.changed gotTransfer σ.world.deposits ∧
      report.failed = w.deposits.changed failedOnRail σ.world.deposits := by
  have hreports : Reports w report σ.world :=
    Run.lone (r := .ok report) h.sound .refl (fun _ ha => nomatch ha) hrun
      (fun _ _ => Result.sweep.inj) rfl (reports_stable w) (fun _ _ _ _ _ => trivial)
      (fun w' hw => sweep_reports h.sound (reports_stable w {} hw (.start h.sound))) hdone
  refine ⟨fun id d hd => ?_, hreports.funded, hreports.resumed, hreports.failed⟩
  obtain ⟨d₀, hd₀, -⟩ := hreports.old hd
  exact ⟨d₀, hd₀⟩

/-- The deposit that had been left behind is on the rail and paid in after one sweep. -/
def Sample.cleared : System :=
  System.alone { world := abandoned.world } .standard (.sweep secondDay)

theorem sample_sweep_is_reported :
    Sample.abandoned.world.deposits.changed becameFunded Sample.cleared.world.deposits = 1 ∧
      Sample.abandoned.world.deposits.changed gotTransfer Sample.cleared.world.deposits = 1 ∧
      Sample.abandoned.world.deposits.changed failedOnRail Sample.cleared.world.deposits = 0 := by
  have hreached : Reached .standard Sample.abandoned.world :=
    .run (.empty rfl rfl rfl) Sample.run_abandoned
  have hdone : Sample.cleared.running = [⟨.sweep Sample.secondDay,
      .done (.sweep (.ok { resumed := 1, polled := 1, funded := 1 }))⟩] := rfl
  obtain ⟨-, hfunded, hresumed, hfailed⟩ :=
    sweep_reports_what_happened hreached (run_alone _ _) hdone
  exact ⟨hfunded.symm, hresumed.symm, hfailed.symm⟩

end Crossing

end Causeway
