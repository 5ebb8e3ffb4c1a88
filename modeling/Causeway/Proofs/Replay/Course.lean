import Causeway.Proofs.Replay.Row

/-!
# The course of a replay

`Reaches` names the state that a replay has come to after its first rows; what holds at the outset
and is kept by each row holds of every state that is reached (`Reaches.induction`). Each row keeps the
world steady and takes at most four identifiers (`Underway.next`).
-/

namespace Causeway.Replay

variable {s : Settings} {rows : List (Except Instruction.RowFault Instruction)} {w v v' : World}
  {n : Nat} {st st' : State} {row : Instruction} {given : Except Instruction.RowFault Instruction}
  {r : Except Failure Unit}

/-- The state after the first `n` rows, if no overflow has ended the replay before. -/
def Reaches (s : Settings) (rows : List (Except Instruction.RowFault Instruction)) (w : World)
    (n : Nat) (st : State) : Prop :=
  (rows.take n).foldlM (step s) { world := w } = .ok st

theorem Reaches.unique (h : Reaches s rows w n st) (h' : Reaches s rows w n st') : st = st' :=
  Except.ok.inj (h.symm.trans h')

theorem reaches_succ_iff (hrow : rows[n]? = some given) :
    Reaches s rows w (n + 1) st' ↔ ∃ st, Reaches s rows w n st ∧ step s st given = .ok st' := by
  unfold Reaches
  rw [List.take_add_one, hrow, List.foldlM_append]
  cases h : (rows.take n).foldlM (step s) { world := w } with
  | error e => simp [bind, Except.bind]
  | ok st => cases hstep : step s st given <;> simp [bind, Except.bind, pure, Except.pure, hstep]

theorem Reaches.start : Reaches s rows w 0 { world := w } := rfl

/-- What holds at the outset and is kept by each row holds of every state that is reached. -/
theorem Reaches.induction {P : Nat → State → Prop} (hstart : P 0 { world := w })
    (hnext : ∀ n given st st', rows[n]? = some given → Reaches s rows w n st →
      step s st given = .ok st' → P n st → P (n + 1) st')
    (hn : n ≤ rows.length) (h : Reaches s rows w n st) : P n st := by
  induction n generalizing st with
  | zero =>
      obtain rfl := h.unique .start
      exact hstart
  | succ n ih =>
      have hrow : rows[n]? = some rows[n] := List.getElem?_eq_getElem (by omega)
      obtain ⟨st₀, hreach, hstep⟩ := (reaches_succ_iff hrow).mp h
      exact hnext n _ st₀ st hrow hreach hstep (ih (by omega) hreach)

/-! ## What each row does -/

/-- What taking up a row does to the state. -/
inductive Taken (s : Settings) (st st' : State) : Except Instruction.RowFault Instruction → Prop where
  | unreadable (fault : Instruction.RowFault) (hworld : st'.world = st.world)
      (husers : st'.users = st.users) : Taken s st st' (.error fault)
  | carriedOut (row : Instruction) (r : Except Failure Unit)
      (h : Carried s row st.world r st'.world)
      (husers : st'.users = if row.user ∈ st.users then st.users else st.users ++ [row.user]) :
      Taken s st st' (.ok row)

theorem taken_of_step (hs : s.Workable) (hw : Steady s st.world) (hfresh : st.world.FreshFor 3)
    (h : step s st given = .ok st') : Taken s st st' given := by
  cases given with
  | error fault =>
      cases h
      exact .unreadable fault rfl rfl
  | ok row =>
      unfold step at h
      dsimp only at h
      rcases hrun : (carryOut s row).run.run.run st.world with ⟨o | e | u, world⟩
      · rw [hrun] at h
        cases h
      · rw [hrun] at h
        cases h
        exact .carriedOut row _ (carried hs hw hfresh hrun) rfl
      · rw [hrun] at h
        cases h
        exact .carriedOut row _ (carried hs hw hfresh hrun) rfl

namespace Carried

theorem steady (h : Carried s row v r v') (hv : Steady s v) : Steady s v' := by
  cases h with
  | overLimit denial _ hpass hw' =>
      rcases hw' with rfl | rfl
      · exact hv.registered
      · exact hv.checked row
  | stopped e _ hpass hobstacle hw' =>
      rcases hw' with rfl | rfl
      · exact hv.checked row
      · exact (hv.checked row).kept_accounts (kept_asked _) rfl
  | placed _ _ d _ _ a hready hw' => exact hready.steady.placed hready.fresh hw'

theorem clock (h : Carried s row v r v') : v'.clock = v.clock := by
  have hregistered := clock_registered row v
  cases h with
  | overLimit denial _ hpass hw' => rcases hw' with rfl | rfl <;> exact hregistered
  | stopped e _ hpass hobstacle hw' => rcases hw' with rfl | rfl <;> exact hregistered
  | placed _ _ d _ _ a hready hw' htells hcounted hbegun hclock => exact hclock

theorem ids (h : Carried s row v r v') : v'.ids = v.ids := by
  have hregistered := (kept_registered row v).ids
  cases h with
  | overLimit denial _ hpass hw' => rcases hw' with rfl | rfl <;> exact hregistered
  | stopped e _ hpass hobstacle hw' => rcases hw' with rfl | rfl <;> exact hregistered
  | placed _ _ d _ _ a hready hw' => exact hw'.ids.trans hregistered

theorem drawn (h : Carried s row v r v') : v'.drawn ≤ v.drawn + 4 := by
  have hregistered := drawn_registered row v
  have hchecked : (checked row v).drawn = (registered row v).drawn := rfl
  have hasked : (checked row v).asked.drawn = (registered row v).drawn + 1 := rfl
  cases h with
  | overLimit denial _ hpass hw' => rcases hw' with rfl | rfl <;> omega
  | stopped e _ hpass hobstacle hw' => rcases hw' with rfl | rfl <;> omega
  | placed _ _ d _ _ a hready hw' htells hcounted hbegun hclock hreadings hdrawn => omega

theorem readings (h : Carried s row v r v') : v.readings ≤ v'.readings := by
  have hregistered := readings_registered row v
  have hchecked : (checked row v).readings = (registered row v).readings + 1 := rfl
  have hasked : (checked row v).asked.readings = (checked row v).readings + 1 := rfl
  cases h with
  | overLimit denial _ hpass hw' => rcases hw' with rfl | rfl <;> omega
  | stopped e _ hpass hobstacle hw' => rcases hw' with rfl | rfl <;> omega
  | placed _ _ d _ _ a hready hw' htells hcounted hbegun hclock hreadings => omega

theorem accounts (h : Carried s row v r v') : v'.accounts = (registered row v).accounts := by
  cases h with
  | overLimit denial _ hpass hw' => rcases hw' with rfl | rfl <;> rfl
  | stopped e _ hpass hobstacle hw' => rcases hw' with rfl | rfl <;> rfl
  | placed _ _ d _ _ a hready hw' => exact hw'.accounts

end Carried

/-! ## Replays underway -/

/-- A replay that began in `w` has come to `v` with its first `n` rows. -/
structure Underway (s : Settings) (w : World) (n : Nat) (v : World) : Prop where
  steady : Steady s v
  clock : v.clock = w.clock
  ids : v.ids = w.ids
  drawn : v.drawn ≤ w.drawn + 4 * n

theorem Underway.fresh (h : Underway s w n v) (hfresh : w.FreshFor (4 * rows.length))
    (hn : n < rows.length) : v.FreshFor 3 := by
  have hdrawn := h.drawn
  exact hfresh.mono h.ids (by omega)

theorem Underway.next (h : Underway s w n st.world) (htaken : Taken s st st' given) :
    Underway s w (n + 1) st'.world := by
  have hdrawn := h.drawn
  cases htaken with
  | unreadable fault hworld =>
      rw [hworld]
      exact ⟨h.steady, h.clock, h.ids, by omega⟩
  | carriedOut row r hcarried =>
      have hmore := hcarried.drawn
      exact ⟨hcarried.steady h.steady, hcarried.clock.trans h.clock, hcarried.ids.trans h.ids,
        by omega⟩

/-- The world in which a replay begins. -/
def initialWorld (s : Settings) (clock : Nat → Instant) (ids : Nat → Uuid) : World :=
  { clock, ids, rail := { feeRate := s.provider.feeRate } }

theorem freshFor_initialWorld (s : Settings) (clock : Nat → Instant) {k : Nat} (hk : k ≤ 2 ^ 128) :
    (initialWorld s clock .ofNat).FreshFor k := by
  intro i hi j hj h
  have hi : i < 0 + k := hi
  have hj : j < 0 + k := hj
  have hbits : (Uuid.ofNat i).bits.toNat = (Uuid.ofNat j).bits.toNat := by
    exact congrArg (fun u : Uuid => u.bits.toNat) h
  rwa [Uuid.ofNat, Uuid.ofNat, BitVec.toNat_ofNat, BitVec.toNat_ofNat,
    Nat.mod_eq_of_lt (by omega), Nat.mod_eq_of_lt (by omega)] at hbits

theorem steady_initialWorld (s : Settings) (clock : Nat → Instant) (ids : Nat → Uuid) :
    Steady s (initialWorld s clock ids) where
  plain := ⟨rfl, rfl, rfl, rfl, rfl⟩
  unclaimed := rfl
  feeRate := rfl
  sound := .empty
  indexed := .empty
  rest _ _ h := nomatch h
  deposits _ _ h := nomatch h
  links _ _ _ h := nomatch h
  transfers _ h := nomatch h
  paid _ _ h := nomatch h
  applied _ h := nomatch h
  accounts _ _ h := nomatch h
  named := List.nodup_nil

/-- An amount without a fraction. -/
def sampleAmount (n : Nat) (h : 0 < n ∧ n < twoTo 96) : Amount where
  value :=
    { magnitude := n
      places := 0
      magnitude_lt := h.2
      places_le := Decimal.zero.places_le }
  pos := by
    rw [Decimal.lt_iff, Decimal.value_zero]
    simpa [Decimal.value, Decimal.coefficient, Decimal.signed, tenTo] using h.1

/-- A row of the user `n`, who is not verified and has one account. -/
def sampleRow (n : Nat) (reference : String) (amount : Amount) (settlement : Settlement) :
    Instruction :=
  { user := .ofNat n
    status := "none"
    railAccount := toString n
    brokerageAccount := "b"
    reference
    amount
    settlement }

def Ending.isReport : Ending → Bool
  | .report _ => true
  | .failed _ | .overflow _ => false

theorem Ending.exists_of_isReport {ending : Ending} (h : ending.isReport) :
    ∃ text, ending = .report text := by
  cases ending with
  | report text => exact ⟨text, rfl⟩
  | failed e => cases h
  | overflow o => cases h

/-- Every state that a replay reaches is steady, and each row does what a row can do. -/
theorem Reaches.rule (hs : s.Workable) {clock : Nat → Instant} {ids : Nat → Uuid}
    (hfresh : (initialWorld s clock ids).FreshFor (4 * rows.length)) {P : Nat → State → Prop}
    (hstart : P 0 { world := initialWorld s clock ids })
    (hnext : ∀ n given st st', rows[n]? = some given →
      Reaches s rows (initialWorld s clock ids) n st →
      Underway s (initialWorld s clock ids) n st.world → st.world.FreshFor 3 →
      Taken s st st' given → P n st → P (n + 1) st')
    (hn : n ≤ rows.length) (h : Reaches s rows (initialWorld s clock ids) n st) :
    Underway s (initialWorld s clock ids) n st.world ∧ P n st := by
  refine Reaches.induction (P := fun n st =>
    Underway s (initialWorld s clock ids) n st.world ∧ P n st)
    ⟨⟨steady_initialWorld s clock ids, rfl, rfl, Nat.le_refl _⟩, hstart⟩ ?_ hn h
  rintro n given st st' hrow hreach hstep ⟨hunder, hP⟩
  obtain ⟨hlt, -⟩ := List.getElem?_eq_some_iff.mp hrow
  have hfresh' := hunder.fresh hfresh hlt
  have htaken := taken_of_step hs hunder.steady hfresh' hstep
  exact ⟨hunder.next htaken, hnext n given st st' hrow hreach hunder hfresh' htaken hP⟩

/-- A replay that does not overflow takes up all rows. The last sweep leaves everything as it is, and
the replay ends in a report. -/
theorem reaches_of_run (hs : s.Workable) {clock : Nat → Instant} {ids : Nat → Uuid}
    (hfresh : (initialWorld s clock ids).FreshFor (4 * rows.length)) {ending : Ending}
    (h : run s rows (initialWorld s clock ids) = (ending, st)) (hflow : ∀ o, ending ≠ .overflow o) :
    ∃ st₀, Reaches s rows (initialWorld s clock ids) rows.length st₀ ∧ st.users = st₀.users ∧
      World.Unmoved st₀.world st.world ∧ ending = .report (Report.render st.deposits) := by
  unfold run at h
  cases hrows : rows.foldlM (step s) { world := initialWorld s clock ids } with
  | error e =>
      rw [hrows] at h
      cases h
      exact absurd rfl (hflow _)
  | ok st₀ =>
      have hreach : Reaches s rows (initialWorld s clock ids) rows.length st₀ := by
        unfold Reaches
        rw [List.take_length]
        exact hrows
      obtain ⟨hunder, -⟩ := hreach.rule (P := fun _ _ => True) hs hfresh trivial
        (fun _ _ _ _ _ _ _ _ _ _ => trivial) (Nat.le_refl _)
      have hmoved : World.Unmoved st₀.world st₀.world.ticked := { World.Unmoved.refl st₀.world with }
      have hplain : st₀.world.ticked.Plain := hunder.steady.plain.congr rfl rfl rfl rfl rfl
      obtain ⟨report, w', hsweep, hmoved'⟩ := Crossing.run_sweep_idle (s := s) hplain
        hunder.steady.sound (fun id d hd => (hunder.steady.rest id d hd).unmoved hmoved)
        st₀.world.now
      have hread : st₀.world.readClock = (st₀.world.now, st₀.world.ticked) := rfl
      rw [hrows] at h
      dsimp only at h
      rw [hread] at h
      dsimp only at h
      rw [hsweep] at h
      obtain ⟨rfl, rfl⟩ := Prod.mk.inj h
      exact ⟨st₀, hreach, rfl, hmoved.trans hmoved', rfl⟩

end Causeway.Replay
