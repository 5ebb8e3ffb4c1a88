import Causeway.Proofs.Crossing.Effect
import Causeway.Proofs.Crossing.Solo

/-!
# A sweep leaves no funded deposit unmarked

A sweep that is alone and meets no fault in its last phase counts and marks every deposit that is
funded by then. What it does before that does not matter.
-/

namespace Causeway.Crossing

variable {s : Settings} {w w' : World} {d : Deposit}

/-! ## Undisturbed exchanges -/

/-- The sweep is not cancelled, and no fault keeps it from reading, counting or marking deposits. -/
def Exchange.smooth : Exchange → Bool
  | ⟨w, .isCancelled⟩ => !w.timer.cancelled
  | ⟨w, .depositsIn status⟩ => (w.script.fault? (.depositsIn status)).isNone
  | ⟨w, .applyUsage _ _ _⟩ => (w.script.fault? .usageApply).isNone
  | ⟨w, .updateDeposit d .brokerFunded⟩ =>
    (w.script.fault? .depositsUpdate).isNone && (w.script.updateFault? d.status).isNone
  | _ => true

/-- The sweep alone: nobody else writes deposits. -/
def soloRules : Rules where
  assumes w r := w.Sound ∧ Exchange.smooth ⟨w, r⟩
  rely w w' := w'.deposits = w.deposits
  permits _ _ := True
  refl _ := rfl
  trans h h' := h'.trans h

/-- Every funded deposit is marked, but for those of the list. -/
def MarkedBut (ds : List Deposit) (w : World) : Prop :=
  ∀ ⦃id d⦄, w.deposits.get? id = some d → d.status = .brokerFunded →
    d.usageRecordedAt.isSome ∨ ∃ d₀ ∈ ds, d₀.id = id

def Funded (ds : List Deposit) (w : World) : Prop :=
  ∀ d ∈ ds, w.Recalls d ∧ d.status = .brokerFunded

theorem recalls_of_rely (h : soloRules.rely w w') : w'.Recalls d ↔ w.Recalls d := by
  have h : w'.deposits = w.deposits := h
  simp only [World.Recalls, h]

theorem depositsIn_solo (status : Deposit.Status) (w : World) :
    soloRules.Yields (depositsIn status)
      (fun ds w => ds = w.deposits.withStatus status ∧ w.deposits.Sound) (fun _ _ => False) w := by
  refine Rules.Yields.ask (Rules.Keeps.request fun w' _ hs => ⟨trivial, fun r hr => ?_⟩)
  have hlook : w'.perform (.depositsIn status) = (.ok (.ok (w'.deposits.withStatus status)), w') :=
    World.guarded_of_none (Option.isNone_iff_eq_none.mp hs.2)
  rw [hlook] at hr ⊢
  cases hr
  exact ⟨rfl, hs.1.deposits⟩

theorem visitAll_whole {visit : Report → Deposit → Program Report} (report : Report)
    (ds : List Deposit) (w : World) :
    soloRules.Keeps (visitAll visit report ds) (fun out _ => out.2 = true) w := by
  induction ds generalizing report w with
  | nil => rfl
  | cons d ds ih =>
      refine Rules.Keeps.bind (Rules.Keeps.request fun w' _ hs => ⟨trivial, fun b hb => ?_⟩)
      have hc : w'.timer.cancelled = false := (Bool.not_eq_true' _).mp hs.2
      have hb : w'.timer.cancelled = b := by injection hb
      rw [hc] at hb
      subst hb
      refine Rules.Keeps.bind (Rules.Keeps.mono (Rules.Keeps.any (fun _ _ => trivial) _ _) ?_)
      exact fun report w _ => ih report w

/-! ## One deposit -/

theorem markedBut_of_update {ds : List Deposit} {now : Instant} {deposits : Store.Deposits}
    {d d' : Deposit} (hw : MarkedBut (d :: ds) w) (ha : d.apply .usageRecorded now = .ok d')
    (hu : w.deposits.update d' .brokerFunded = .ok deposits) :
    MarkedBut ds { w with deposits } := by
  intro id e he hst
  have hid : d'.id = d.id := congrArg Deposit.Origin.id (Deposit.origin_of_apply ha)
  rw [Store.Deposits.get?_update hu, hid] at he
  split at he
  · cases he
    left
    rw [(Deposit.apply_eq_ok_iff.mp ha).2]
    rfl
  · rename_i hne
    rcases hw he hst with hm | ⟨d₀, hd₀, hd₀id⟩
    · exact Or.inl hm
    · rcases List.mem_cons.mp hd₀ with rfl | hd₀
      · exact absurd hd₀id hne
      · exact Or.inr ⟨d₀, hd₀, hd₀id⟩

theorem Funded.congr {ds : List Deposit} (hw : w'.deposits = w.deposits) (h : Funded ds w) :
    Funded ds w' :=
  fun d hd => ⟨(recalls_of_rely hw).mpr (h d hd).1, (h d hd).2⟩

theorem MarkedBut.congr {ds : List Deposit} (hw : w'.deposits = w.deposits)
    (h : MarkedBut ds w) : MarkedBut ds w' := by
  intro id d hd
  rw [hw] at hd
  exact h hd

theorem applyUsage_solo (d : Deposit) (w : World) :
    soloRules.Yields
      (Action.ask (Program.request (.applyUsage d.user d.id d.amount.value)))
      (fun _ w' => w'.deposits = w.deposits) (fun _ _ => False) w := by
  refine Rules.Yields.ask (Rules.Keeps.request fun w' hw hs => ⟨trivial, fun r hr => ?_⟩)
  rw [World.applyUsage_of_none (Option.isNone_iff_eq_none.mp hs.2)] at hr ⊢
  rcases Store.Usages.apply_cases w'.usages d.user d.id d.amount.value (w'.clock w'.readings) with
    ⟨hle, _⟩ | ⟨_, ha⟩ | ⟨_, _, _, ha⟩
  · exact absurd hle (Decimal.not_le_zero d.amount)
  · rw [ha] at hr
    cases hr
    exact hw
  · rw [ha] at hr
    split at hr
    · cases hr
      exact hw
    · cases hr

theorem mark_solo {e : Deposit.Event} (h : d.Allows e) (w : World) :
    soloRules.Yields (mark d e)
      (fun d' w' => (∃ now, d.apply e now = .ok d') ∧ w'.deposits = w.deposits)
      (fun _ _ => False) w := by
  refine Rules.Yields.bind (Rules.Yields.lift (Rules.Keeps.request fun w' hw _ =>
    ⟨trivial, fun now _ => ?_⟩))
  have ha : d.apply e now = .ok (d.after e now) := Deposit.apply_eq_ok_iff.mpr ⟨h, rfl⟩
  rw [ha]
  exact ⟨⟨now, ha⟩, hw⟩

theorem update_solo {ds : List Deposit} {d' : Deposit} {now : Instant} (hf : Funded (d :: ds) w)
    (hm : MarkedBut (d :: ds) w) (ha : d.apply .usageRecorded now = .ok d') :
    soloRules.Yields (update d' .brokerFunded) (fun _ w' => Funded ds w' ∧ MarkedBut ds w')
      (fun _ _ => False) w := by
  refine Rules.Yields.ask (Rules.Keeps.request fun w' hw hs => ⟨trivial, fun r hr => ?_⟩)
  obtain ⟨hsound, hsmooth⟩ := hs
  obtain ⟨hfault, hufault⟩ := (Bool.and_eq_true _ _).mp hsmooth
  rw [Option.isNone_iff_eq_none] at hfault hufault
  replace hf := hf.congr hw
  replace hm := hm.congr hw
  obtain ⟨⟨cur, hcur, hl⟩, hst⟩ := hf d (by simp)
  have hid : d'.id = d.id := congrArg Deposit.Origin.id (Deposit.origin_of_apply ha)
  have hcurst := hl.status_funded hst
  -- The stored deposit differs from the copy in its mark at most.
  have hcur' := hl.funded hst
  have hd' := (Deposit.apply_eq_ok_iff.mp ha).2
  obtain ⟨deposits, hu⟩ := Store.Deposits.update_of_stored (d := d') hsound.deposits
    (by rw [hid]; exact hcur) (by rw [hd', hcur']; rfl) (by rw [hd', hcur']; rfl)
  rw [hcurst] at hu
  rw [World.updateDeposit_of_none hsound.race hfault hufault hu] at hr ⊢
  cases hr
  refine ⟨fun e he => ?_, markedBut_of_update hm ha hu⟩
  obtain ⟨⟨cure, hcure, hle⟩, hste⟩ := hf e (by simp [he])
  rw [← hst] at hu
  obtain ⟨_, _, _, _, hadv⟩ := Store.Deposits.update_moves hsound.deposits hcur hl ha
    (by rw [hst]; intro h; cases h) hu
  obtain ⟨cure', hcure', rfl | hmoves⟩ := hadv hcure
  · exact ⟨⟨_, hcure', hle⟩, hste⟩
  · exact ⟨⟨_, hcure', hle.tail hmoves⟩, hste⟩

theorem recordUsage_solo {ds : List Deposit} (hf : Funded (d :: ds) w)
    (hm : MarkedBut (d :: ds) w) :
    soloRules.Yields (recordUsage d) (fun _ w' => Funded ds w' ∧ MarkedBut ds w')
      (fun _ _ => False) w := by
  refine Rules.Yields.next (applyUsage_solo d w) fun _ w' hw => ?_
  replace hf := hf.congr hw
  replace hm := hm.congr hw
  have hallows : d.Allows .usageRecorded := (hf d (by simp)).2
  refine Rules.Yields.next (mark_solo hallows w') fun d' w'' ⟨⟨now, ha⟩, hw'⟩ => ?_
  exact Rules.Yields.next (update_solo (hf.congr hw') (hm.congr hw') ha)
    fun _ _ h => Rules.Yields.pure h

/-! ## The sweep -/

theorem visitAll_marks (report : Report) (ds : List Deposit) (w : World) (hf : Funded ds w)
    (hm : MarkedBut ds w) :
    soloRules.Keeps (visitAll visitFunded report ds) (fun _ w' => MarkedBut [] w') w := by
  induction ds generalizing report w with
  | nil => exact hm
  | cons d ds ih =>
      refine Rules.Keeps.bind (Rules.Keeps.request fun w' hw hs => ⟨trivial, fun b hb => ?_⟩)
      have hc : w'.timer.cancelled = false := (Bool.not_eq_true' _).mp hs.2
      have hb : w'.timer.cancelled = b := by injection hb
      rw [hc] at hb
      subst hb
      refine Rules.Keeps.bind (Rules.Keeps.bind (Rules.Keeps.mono
        (recordUsage_solo (hf.congr hw) (hm.congr hw)) fun r w'' hr => ?_))
      cases r with
      | ok d' => exact ih _ w'' hr.1 hr.2
      | error e => exact hr.elim

/-- A phase of the sweep before the last, whatever it does, goes on to the next. -/
theorem phase_solo {visit : Report → Deposit → Program Report} {status : Deposit.Status}
    {report : Report} {next : Report × Bool → Action Report} {Q : Report → World → Prop} {w : World}
    (hnext : ∀ report w, soloRules.Yields (next (report, true)) Q (fun _ _ => False) w) :
    soloRules.Yields (depositsIn status >>= fun ds => liftM (visitAll visit report ds) >>= next) Q
      (fun _ _ => False) w := by
  refine Rules.Yields.next (depositsIn_solo status w) fun ds w' _ => ?_
  refine Rules.Yields.bind (Rules.Yields.lift (Rules.Keeps.mono (visitAll_whole report ds w') ?_))
  rintro ⟨report, whole⟩ w'' hwhole
  have hwhole : whole = true := hwhole
  subst hwhole
  exact hnext report w''

/-- Before the last phase every funded deposit is marked or on the list of that phase. -/
theorem markedBut_unrecorded (hs : w.deposits.Sound) :
    MarkedBut ((w.deposits.withStatus .brokerFunded).filter (·.usageRecordedAt.isNone)) w := by
  intro id d hd hst
  cases hm : d.usageRecordedAt with
  | some t => exact Or.inl rfl
  | none =>
      obtain rfl := hs.id_eq hd
      refine Or.inr ⟨d, List.mem_filter.mpr ⟨?_, by simp [hm]⟩, rfl⟩
      exact (Store.Deposits.mem_withStatus hs).mpr ⟨hd, hst⟩

theorem funded_unrecorded (hs : w.deposits.Sound) :
    Funded ((w.deposits.withStatus .brokerFunded).filter (·.usageRecordedAt.isNone)) w := by
  intro d hd
  obtain ⟨hd, hst⟩ := (Store.Deposits.mem_withStatus hs).mp (List.mem_filter.mp hd).1
  exact ⟨⟨d, hd, .refl⟩, hst⟩

theorem sweep_marks (now : Instant) (w : World) :
    soloRules.Yields (sweep s now) (fun _ w' => MarkedBut [] w') (fun _ _ => False) w := by
  refine phase_solo fun report w => ?_
  refine phase_solo fun report w => ?_
  refine phase_solo fun report w => ?_
  refine Rules.Yields.next (depositsIn_solo .brokerFunded w) fun ds w' ⟨hds, hs⟩ => ?_
  subst hds
  refine Rules.Yields.bind (Rules.Yields.lift (Rules.Keeps.mono (visitAll_marks report _ w'
    (funded_unrecorded hs) (markedBut_unrecorded hs)) ?_))
  exact fun _ _ hm => hm

theorem markedBut_stable (ds : List Deposit) : soloRules.Stable (MarkedBut ds) :=
  fun _ _ hw h => h.congr hw

/-- After a sweep that has been alone and has met no fault, every funded deposit is marked. -/
theorem Run.marked {σ σ' : System} (hrun : Run s σ σ') (hended : ∀ a ∈ σ.running, a.ended)
    (hsmooth : ∀ x ∈ σ'.since σ, x.before.Sound ∧ x.smooth) {now : Instant} {res : Result}
    (hres : σ'.running = σ.running ++ [⟨.sweep now, .done res⟩]) : MarkedBut [] σ'.world := by
  refine hrun.solo (R := soloRules) (Q := fun _ => MarkedBut []) (fun _ => markedBut_stable _)
    (fun _ _ hd => hd.quiet.deposits) hended (fun w _ => ?_) hsmooth hres
  refine Rules.Keeps.map (Rules.Keeps.mono (sweep_marks now w) fun r w' hr => ?_)
  cases r with
  | ok report => exact hr
  | error e => exact hr.elim

end Causeway.Crossing
