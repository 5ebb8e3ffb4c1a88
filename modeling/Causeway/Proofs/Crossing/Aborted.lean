import Causeway.Proofs.Crossing.Halted
import Causeway.Proofs.Retry.Timer

/-!
# Runs that begin once an abort is due

In a lasting run an abort that is due stays due. If operations begin only then, they spare what is
stored, however they take turns, and each claim that they take they give back, since an overflow
meets only who holds none (`System.Entrusted`). With the token cancelled besides, sweeps change
nothing (`nothing_moves_after_abort`).
-/

namespace Causeway

theorem World.perform_lasting (w : World) (r : Request) :
    w.timer.Lasting (w.perform r).2.timer := by
  cases r with
  | pause ms => exact w.timer.lasting_pause ms
  | _ =>
      rw [w.perform_timer (by simp)]
      exact .refl _

namespace Crossing

open Discipline
open World (Spared)

variable {s : Settings} {σ σ' : System} {w w' : World} {id : Uuid} {r : Request}
  {k : r.Answer → Program Result} {op : Operation} {before behind : List Activity}

def LastingStep (s : Settings) (σ σ' : System) : Prop :=
  Step s σ σ' ∧ σ.world.timer.Lasting σ'.world.timer

/-- A run in which an abort that is due stays due and a cancelled token cancelled. -/
abbrev LastingRun (s : Settings) : System → System → Prop := Relation.ReflTransGen (LastingStep s)

/-- No operation puts off an abort. -/
theorem lasting_alone (σ : System) (op : Operation) : LastingRun s σ (σ.alone s op) :=
  .head ⟨.start op, .refl _⟩ (reach_play
    (fun σ _ _ r _ h => ⟨.turn h, σ.world.perform_lasting r⟩) σ.running op (op.program s)
    σ.world σ.history)

/-! ## Claims are given back -/

/-- Each claim is one of those of before, or is held by an operation that gives it back. -/
structure System.Entrusted (former : List Uuid) (σ : System) : Prop where
  distinct : σ.world.claims.Nodup
  bound : ∀ a ∈ σ.running, ∃ held, careful.Binds held a.rest (Still none)
  held : ∀ id ∈ σ.world.claims,
    id ∈ former ∨ ∃ a ∈ σ.running, careful.Binds (some id) a.rest (Still none)

/-- Who holds a claim meets no overflow, and still holds the claim if it has not been released. -/
theorem careful_turn (hw : w.timer.aborted) (hn : w.claims.Nodup)
    (h : careful.Binds (some id) (.call r k) (Still none)) (hid : id ∈ (w.perform r).2.claims) :
    careful.Binds (some id) (System.resume k (w.perform r).1) (Still none) := by
  obtain ⟨hallows, hnext⟩ := h
  cases hans : (w.perform r).1 with
  | error o =>
      have hcounts : World.counts r := by
        by_contra hcounts
        obtain ⟨a, ha⟩ := w.perform_ok (r := r) (by simpa using hcounts)
        rw [ha] at hans
        cases hans
      cases r with
      | incrementUsage _ _ _ | applyUsage _ _ _ => cases hallows
      | _ => cases hcounts
  | ok a =>
      replace hnext := hnext a (due_of_aborted hw hans)
      cases r with
      | claim id' => cases hallows
      | release id' =>
          cases hallows
          exact absurd rfl (hn.mem_erase_iff.mp hid).1
      | _ => exact hnext

theorem System.Entrusted.turn {former : List Uuid} (h : σ.Entrusted former)
    (hw : σ.world.timer.aborted) (hr : σ.running = before ++ ⟨op, .call r k⟩ :: behind) :
    (σ.turn before behind op r k).Entrusted former := by
  have hmem : ⟨op, .call r k⟩ ∈ σ.running := by rw [hr]; simp
  obtain ⟨held, -, hnext⟩ := h.bound _ hmem
  refine ⟨World.nodup_claims_perform h.distinct r, fun a ha => ?_, fun id hid => ?_⟩
  · rcases System.mem_turn hr ha with rfl | ha
    · cases hans : (σ.world.perform r).1 with
      | ok a => exact ⟨_, hnext a (due_of_aborted hw hans)⟩
      | error o => exact ⟨none, rfl⟩
    · exact h.bound a ha
  by_cases hold : id ∈ σ.world.claims
  · rcases h.held id hold with hformer | ⟨a, ha, hbinds⟩
    · exact .inl hformer
    rcases System.mem_running hr ha with rfl | ha
    · exact .inr ⟨⟨op, System.resume k _⟩, by simp [System.turn],
        careful_turn hw h.distinct hbinds hid⟩
    · exact .inr ⟨a, ha, hbinds⟩
  · -- The claim is new, so the one whose turn it was holds it.
    obtain rfl := (World.mem_claims_perform hid).resolve_left hold
    have hclaimed : (σ.world.perform (.claim id)).1 = .ok true := by
      simp only [World.perform, if_neg hold]
    refine .inr ⟨⟨op, k true⟩, ?_, hnext true trivial⟩
    simp [System.turn, System.resume, hclaimed]

theorem Step.entrusted {former : List Uuid} (h : Step s σ σ') (hw : σ.world.timer.aborted)
    (hσ : σ.Entrusted former) : σ'.Entrusted former := by
  cases h with
  | start op =>
      refine ⟨hσ.distinct, fun a ha => ?_, fun id hid => ?_⟩
      · rcases List.mem_append.mp ha with ha | ha
        · exact hσ.bound a ha
        · obtain rfl := List.mem_singleton.mp ha
          exact ⟨none, program_careful s op⟩
      · exact (hσ.held id hid).imp_right fun ⟨a, ha, h⟩ => ⟨a, List.mem_append_left _ ha, h⟩
  | turn hr => exact hσ.turn hw hr
  | disturb hd =>
      refine ⟨by rw [hd.claims]; exact hσ.distinct, hσ.bound, fun id hid => ?_⟩
      rw [hd.claims] at hid
      exact hσ.held id hid

theorem System.Entrusted.of_ended {former : List Uuid} (h : σ.Entrusted former)
    (hended : ∀ a ∈ σ.running, a.ended) (hid : id ∈ σ.world.claims) : id ∈ former := by
  refine (h.held id hid).resolve_right ?_
  rintro ⟨⟨op, p⟩, ha, hbinds⟩
  cases p with
  | done a => cases hbinds
  | call r k => exact nomatch hended _ ha
  | crash o => cases hbinds

/-! ## Sweeps of a cancelled token -/

/-- What is left of a sweep lists deposits at most. -/
def System.Idles (σ : System) : Prop :=
  ∀ a ∈ σ.running, ∀ now, a.operation = .sweep now → ∃ held, idle.Binds held a.rest (Still none)

theorem revoked_of_cancelled (hw : w.timer.cancelled) {a : r.Answer}
    (ha : (w.perform r).1 = .ok a) : Revoked r a := by
  cases r with
  | isCancelled =>
      cases ha
      exact hw
  | _ => trivial

theorem Step.idles (h : Step s σ σ') (hw : σ.world.timer.cancelled) (hσ : σ.Idles) : σ'.Idles := by
  cases h with
  | start op =>
      intro a ha now hop
      rcases List.mem_append.mp ha with ha | ha
      · exact hσ a ha now hop
      · obtain rfl := List.mem_singleton.mp ha
        replace hop : op = .sweep now := hop
        subst hop
        exact ⟨none, sweep_idle s now⟩
  | disturb hd => exact hσ
  | @turn before behind op r k hr =>
      intro a ha now hop
      rcases System.mem_turn hr ha with rfl | ha
      · obtain ⟨held, -, hnext⟩ := hσ ⟨op, .call r k⟩ (by rw [hr]; simp) now hop
        cases hans : (σ.world.perform r).1 with
        | ok a => exact ⟨_, hnext a (revoked_of_cancelled hw hans)⟩
        | error o => exact ⟨none, rfl⟩
      · exact hσ a ha now hop

/-- Who lists deposits spends a fault at most. -/
theorem perform_lists (h : Lists r) (w : World) :
    ∃ c, (w.perform r).2 = { w with script := c } := by
  cases r with
  | depositsIn status =>
      simp only [World.perform, World.look, World.guarded]
      split
      · exact ⟨_, rfl⟩
      · exact ⟨_, rfl⟩
  | isCancelled => exact ⟨_, rfl⟩
  | _ => exact h.elim

/-! ## All runs -/

theorem Disturbance.spared (h : Disturbance w w') : Spared w w' :=
  .of_eq h.outbound h.quiet.deposits

/-- What holds of a system whose operations have begun with an abort due. -/
structure System.Stilled (former : List Uuid) (σ : System) : Prop where
  due : σ.world.timer.aborted
  keyed : σ.world.deposits.Keyed
  obeys : σ.Obeys halted
  entrusted : σ.Entrusted former

theorem LastingStep.stilled {former : List Uuid} (h : LastingStep s σ σ')
    (hσ : σ.Stilled former) : σ'.Stilled former ∧ Spared σ.world σ'.world := by
  obtain ⟨hstep, hlasting⟩ := h
  have hdue := hlasting.aborted hσ.due
  have hentrusted := hstep.entrusted hσ.due hσ.entrusted
  cases hstep with
  | start op =>
      exact ⟨⟨hdue, hσ.keyed, hσ.obeys.start (program_harmless s op _), hentrusted⟩, .refl _⟩
  | @turn before behind op r k hr =>
      have hassumes : halted.assumes σ.world r := ⟨hσ.due, hσ.keyed⟩
      exact ⟨⟨hdue, World.perform_keyed hσ.keyed r, hσ.obeys.turn halted_shared hr hassumes,
        hentrusted⟩, (hσ.obeys.permits hr hassumes).spared⟩
  | disturb hd =>
      have hkeyed := hσ.keyed
      rw [← hd.quiet.deposits] at hkeyed
      exact ⟨⟨hdue, hkeyed, hσ.obeys.disturb hd.spared, hentrusted⟩, hd.spared⟩

theorem LastingRun.stilled {former : List Uuid} (h : LastingRun s σ σ') (hσ : σ.Stilled former) :
    σ'.Stilled former ∧ Spared σ.world σ'.world := by
  induction h with
  | refl => exact ⟨hσ, .refl _⟩
  | tail _ hstep ih =>
      obtain ⟨hmid, hspared⟩ := ih
      obtain ⟨hend, hspared'⟩ := hstep.stilled hmid
      exact ⟨hend, hspared.trans hspared'⟩

theorem LastingRun.idles (h : LastingRun s σ σ') (hw : σ.world.timer.cancelled) (hσ : σ.Idles) :
    σ'.world.timer.cancelled ∧ σ'.Idles := by
  induction h with
  | refl => exact ⟨hw, hσ⟩
  | tail _ hstep ih =>
      obtain ⟨hstep, hlasting⟩ := hstep
      exact ⟨hlasting.cancelled ih.1, hstep.idles ih.1 ih.2⟩

/-- In every run of operations that begin with an abort due, however they take turns, nobody calls
the rail or the brokerage, stored deposits stay where they are, and new ones stay at their
beginning. Once all operations have ended, nothing is claimed that was not claimed before. If the
token is cancelled, no turn of a sweep changes anything but the faults that are still to come. -/
theorem nothing_moves_after_abort (hdue : w.timer.aborted) (hkeyed : w.deposits.Keyed)
    (hclaims : w.claims.Nodup) (hrun : LastingRun s { world := w } σ) :
    Spared w σ.world ∧
      ((∀ a ∈ σ.running, a.ended) → ∀ id ∈ σ.world.claims, id ∈ w.claims) ∧
      (w.timer.cancelled → ∀ before now r k behind,
        σ.running = before ++ ⟨.sweep now, .call r k⟩ :: behind →
          ∃ c, (σ.world.perform r).2 = { σ.world with script := c }) := by
  have hstart : System.Stilled w.claims { world := w } :=
    ⟨hdue, hkeyed, (fun _ ha => nomatch ha),
      ⟨hclaims, (fun _ ha => nomatch ha), fun _ hid => .inl hid⟩⟩
  obtain ⟨hstilled, hspared⟩ := hrun.stilled hstart
  refine ⟨hspared, fun hended id hid => hstilled.entrusted.of_ended hended hid, ?_⟩
  intro hcancelled before now r k behind hr
  obtain ⟨-, hidles⟩ := hrun.idles hcancelled fun _ ha => nomatch ha
  obtain ⟨held, hlists, -⟩ := hidles ⟨.sweep now, .call r k⟩ (by rw [hr]; simp) now rfl
  exact perform_lists hlists σ.world

namespace Sample

/-- The deposit has come over the rail, but it could not be paid in. -/
def unpaid : System :=
  System.alone { completed .epoch with
    world := { (completed .epoch).world with
      brokerage := { (completed .epoch).world.brokerage with
        failures := [.storage (.stated "unavailable")] } } }
    .standard (.callback transfer)

theorem run_unpaid : Run .standard { world := world .epoch } unpaid :=
  ((run_begun .epoch).trans (run_disturb (.complete transfer))).trans
    ((run_disturb (.brokerageFailures _)).trans (run_alone _ _))

/-- Then the token has been cancelled. -/
def revoked : World := { unpaid.world with timer := { cancelAt := some 0 } }

/-- The deposit as the one who comes to pay it in knows it. -/
def copy : Deposit :=
  { Deposit.start deposit user account.id "reference" amount "USDC" .epoch with
    status := .railCompleted }

/-- A payment, another deposit and a sweep have come too late. -/
def stilled : System :=
  ((System.alone { world := revoked } .standard (.fund copy)).alone .standard
    (.initiate user account.railAccount amount "another reference")).alone .standard (.sweep .epoch)

theorem run_stilled : LastingRun .standard { world := revoked } stilled :=
  ((lasting_alone _ _).trans (lasting_alone _ _)).trans (lasting_alone _ _)

end Sample

/-- The deposit waits where it was, nothing is claimed, and the next sweep changes nothing. -/
theorem sample_is_stilled :
    (∃ d, Sample.stilled.world.deposits.get? Sample.deposit = some d ∧
      d.status = .railCompleted) ∧
      Sample.stilled.world.outbound = Sample.revoked.outbound ∧
      Sample.stilled.world.claims = [] ∧
      ∃ c, (Sample.stilled.world.perform (.depositsIn .railCompleted)).2 =
        { Sample.stilled.world with script := c } := by
  have hs : (Sample.world .epoch).Sound := ⟨.empty, rfl⟩
  have hkeyed : Sample.revoked.deposits.Keyed :=
    (Sample.run_unpaid.orderly (System.orderly_of_idle hs)).sound.deposits.keyed
  have hdue : Sample.revoked.timer.aborted := by decide
  have hclaims : Sample.revoked.claims.Nodup := by decide
  have hstored : (Sample.revoked.deposits.get? Sample.deposit).map (·.status) =
      some .railCompleted := by decide
  obtain ⟨d, hd, hst⟩ := Option.map_eq_some_iff.mp hstored
  obtain ⟨hspared, hreturned, -⟩ :=
    nothing_moves_after_abort hdue hkeyed hclaims Sample.run_stilled
  obtain ⟨d', hd', hstands⟩ := hspared.kept hd
  have hended : ∀ a ∈ Sample.stilled.running, a.ended := by decide
  have hnone : Sample.revoked.claims = [] := by decide
  refine ⟨⟨d', hd', (Deposit.status_of_standing hstands).trans hst⟩, hspared.outbound, ?_, ?_⟩
  · refine List.eq_nil_iff_forall_not_mem.mpr fun id hid => ?_
    have hformer := hreturned hended id hid
    rw [hnone] at hformer
    cases hformer
  · have hrun : LastingRun .standard { world := Sample.revoked }
        (Sample.stilled.start .standard (.sweep .epoch)) :=
      Sample.run_stilled.tail ⟨.start _, .refl _⟩
    obtain ⟨-, -, hlists⟩ := nothing_moves_after_abort hdue hkeyed hclaims hrun
    exact hlists (by decide) Sample.stilled.running .epoch (.depositsIn .railCompleted) _ [] rfl

end Crossing

end Causeway
