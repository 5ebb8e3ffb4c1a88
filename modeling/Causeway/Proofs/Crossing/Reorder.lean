import Causeway.Proofs.Crossing.Waiting
import Causeway.Proofs.Refusal

/-!
# Nothing is ordered twice

Once a deposit has left its first stage no transfer is ordered under its reference again, and a
reference that is taken is refused before anything is ordered (`nothing_ordered_again`). A store
that calls a reference taken when it is asked for an update would come too late.
-/

namespace Causeway

open Deposit (Event Status)

/-- The failure does not say that a reference is taken. -/
def Failure.Untaken (e : Failure) : Prop := ∀ reference, e ≠ .duplicateReference reference

theorem Failure.Refusal.untaken {e : Failure} (h : e.Refusal) : e.Untaken := by
  cases h <;> exact fun _ => Failure.noConfusion

theorem Deposit.untaken_of_apply {d : Deposit} {e : Event} {now : Instant} {f : Failure}
    (h : d.apply e now = .error f) : f.Untaken := by
  have hmove : ∀ {status d'}, d.moveTo status now = d' → ∀ f, d' = .error f → f.Untaken := by
    intro status d' hd' f hf
    subst hd'
    unfold moveTo at hf
    split at hf
    · cases hf
    · cases hf
      exact fun _ => Failure.noConfusion
  cases e with
  | usageRecorded =>
      unfold apply at h
      dsimp only at h
      split at h
      · cases h
      · cases h
        exact fun _ => Failure.noConfusion
  | _ =>
      simp only [apply, bind, Except.bind, pure, Except.pure] at h
      split at h
      · rename_i hf
        cases h
        exact hmove hf _ rfl
      · cases h

theorem Deposit.Leads.left {d d' : Deposit} (h : d.Leads d') (hst : d.status ≠ .created) :
    d'.status ≠ .created := by
  have hle := h.rank_le
  cases hd : d.status <;> cases hd' : d'.status <;> simp_all [Status.rank]

theorem Store.Deposits.untaken_of_update {s : Store.Deposits} {d : Deposit} {expected : Status}
    {f : Failure} (h : s.update d expected = .error f) : f.Untaken := by
  unfold update at h
  split at h
  · cases h
    exact fun _ => Failure.noConfusion
  · split at h
    · cases h
      exact fun _ => Failure.noConfusion
    · split at h
      · cases h
        exact fun _ => Failure.noConfusion
      · split at h
        · cases h
          exact fun _ => Failure.noConfusion
        · cases h

namespace Crossing

variable {s : Settings} {σ σ' : System} {w w' : World} {d : Deposit}

/-- The script does not make an update fail as if its reference were taken. -/
def Exchange.honest : Exchange → Prop
  | ⟨w, .updateDeposit d _⟩ =>
    (∀ f ∈ w.script.fault? .depositsUpdate, f.1.Untaken) ∧
      ∀ f ∈ w.script.updateFault? d.status, f.1.Untaken
  | _ => True

theorem untaken_of_honest (hs : w.Sound) {expected : Status}
    (h : Exchange.honest ⟨w, .updateDeposit d expected⟩) {f : Failure}
    (hf : (w.perform (.updateDeposit d expected)).1 = .ok (.error f)) : f.Untaken := by
  simp only [World.perform, World.contestedUpdate, World.guarded] at hf
  cases hfault : w.script.fault? .depositsUpdate with
  | some x =>
      simp only [hfault] at hf
      cases hf
      exact h.1 x hfault
  | none =>
      simp only [hfault] at hf
      cases hupdate : w.script.updateFault? d.status with
      | some x =>
          simp only [hupdate] at hf
          cases hf
          exact h.2 x hupdate
      | none =>
          simp only [hupdate, World.race, hs.race, World.updateDeposit] at hf
          cases hu : w.deposits.update d expected with
          | ok deposits =>
              rw [hu] at hf
              cases hf
          | error e =>
              rw [hu] at hf
              cases hf
              exact Store.Deposits.untaken_of_update hu

/-! ## One initiation -/

/-- One operation in sound worlds whose script is honest; between two requests nothing is sent. -/
def quietRules : Rules where
  assumes w r := w.Sound ∧ Exchange.honest ⟨w, r⟩
  rely w w' := w'.outbound = w.outbound
  permits _ _ := True
  refl _ := rfl
  trans h h' := h'.trans h

theorem order_untaken (w : World) :
    quietRules.Yields (Action.retrying (policy s) (Provider.convert s.provider (request s d)))
      (fun _ _ => True) (fun e _ => e.Untaken) w := by
  have hspares (r : Request) : quietRules.Spares (fun _ => True) r := fun _ _ _ _ _ =>
    ⟨trivial, trivial⟩
  refine Rules.Yields.mono (Rules.Yields.attempting (J := fun _ => True) (hspares _)
    (fun _ => hspares _) (fun _ => Failure.noConfusion) (fun w _ => ?_) trivial) (fun _ _ h => h)
    fun _ _ h => h.2
  refine Rules.Yields.bind (Q := fun _ _ => True) ?_
  cases hv : s.provider.validate (request s d) with
  | error e => exact ⟨trivial, (ProviderSettings.refusal_of_validate hv).untaken⟩
  | ok u =>
      refine Rules.Yields.bind (Q := fun _ _ => True) (Rules.Yields.bind
        (Rules.Yields.lift (Rules.Keeps.request fun w' _ _ => ⟨trivial, fun reply _ => ?_⟩)))
      refine Rules.Yields.mono (Rules.Yields.receive (J := fun _ => True) (F := Failure.Untaken)
        (fun _ => hspares _) (fun e _ _ => Failure.noConfusion) trivial) ?_ fun _ _ h => h
      exact fun _ _ _ => Rules.Yields.pure trivial

theorem mark_untaken (d : Deposit) (e : Event) (w : World) :
    quietRules.Yields (mark d e) (fun _ _ => True) (fun f _ => f.Untaken) w := by
  refine Rules.Yields.bind (Rules.Yields.lift (Rules.Keeps.request fun w' _ _ =>
    ⟨trivial, fun now _ => Rules.Yields.ofExcept ?_⟩))
  cases ha : d.apply e now with
  | ok d' => trivial
  | error f => exact Deposit.untaken_of_apply ha

theorem update_untaken (d : Deposit) (expected : Status) (w : World) :
    quietRules.Yields (update d expected) (fun _ _ => True) (fun f _ => f.Untaken) w := by
  refine Rules.Yields.ask (Rules.Keeps.request fun w' _ ha => ⟨trivial, fun r hr => ?_⟩)
  cases r with
  | ok u => trivial
  | error f => exact untaken_of_honest ha.1 ha.2 hr

/-- However the order for a stored deposit fails, it does not say that the reference is taken. -/
theorem startRail_untaken (d : Deposit) (w : World) :
    quietRules.Yields (startRail s d) (fun _ _ => True) (fun f _ => f.Untaken) w := by
  refine Rules.Yields.bind (Rules.Yields.result (Rules.Yields.mono (order_untaken w) ?_ ?_))
  · intro response w _
    refine Rules.Yields.next (mark_untaken d _ w) fun d' w _ => ?_
    exact Rules.Yields.next (update_untaken d' _ w) fun _ _ _ => Rules.Yields.pure trivial
  · intro e w he
    refine Rules.Yields.bind (Rules.Yields.lift (Rules.Keeps.request fun w' _ _ =>
      ⟨trivial, fun aborted _ => ?_⟩))
    dsimp only
    split
    · exact Rules.Yields.throw he
    · refine Rules.Yields.next (mark_untaken d _ _) fun d' w _ => ?_
      exact Rules.Yields.bind (Rules.Yields.result (Rules.Yields.mono (update_untaken d' _ w)
        (fun _ _ _ => Rules.Yields.throw he) fun _ _ _ => Rules.Yields.throw he))

/-- The requests before a deposit is stored, and the one that stores it. -/
def Prepares : Request → Prop
  | .accountByRail _ | .now | .freshId | .createDeposit _ => True
  | _ => False

theorem Prepares.spares {out : List Outbound} (r : Request) (hr : Prepares r) :
    quietRules.Spares (fun w => w.outbound = out) r := by
  intro w w' hw hrely _
  have hw' : w'.outbound = out := Eq.trans hrely hw
  refine ⟨trivial, Eq.trans ?_ hw'⟩
  cases r with
  | accountByRail _ | createDeposit _ | now | freshId => exact World.perform_outbound w' rfl
  | _ => exact hr.elim

/-- An initiation that finds its reference taken has sent nothing. -/
theorem initiate_untaken {out : List Outbound} (user : Uuid) (railAccount : String)
    (amount : Amount) (reference : String) (hw : w.outbound = out) :
    quietRules.Yields (initiate s user railAccount amount reference) (fun _ _ => True)
      (fun f w => f.Untaken ∨ w.outbound = out) w := by
  have hask {α : Type} {p : Program (Except Failure α)} {w : World} (hp : p.Only Prepares)
      (hw : w.outbound = out) : quietRules.Yields (Action.ask p) (fun _ w => w.outbound = out)
        (fun f w => f.Untaken ∨ w.outbound = out) w := by
    refine Rules.Yields.ask (Rules.Keeps.mono (Rules.Keeps.spared Prepares.spares hp hw) ?_)
    rintro (e | a) w hw
    · exact .inr hw
    · exact hw
  have hread {r : Request} {w : World} (hr : Prepares r) (hw : w.outbound = out) :
      quietRules.Yields (liftM (Program.request r) : Action r.Answer) (fun _ w => w.outbound = out)
        (fun f w => f.Untaken ∨ w.outbound = out) w :=
    Rules.Yields.lift (Rules.Keeps.spared Prepares.spares (.request hr) hw)
  unfold initiate
  dsimp only
  split
  · exact Rules.Yields.throw (.inr hw)
  · refine Rules.Yields.next (hask (.request trivial) hw) fun found w hw => ?_
    refine Rules.Yields.bind (Rules.Yields.orNotFound (fun account _ => ?_) fun _ => .inr hw)
    split
    · exact Rules.Yields.throw (.inr hw)
    · refine Rules.Yields.next (hread (r := .now) trivial hw) fun now w hw => ?_
      refine Rules.Yields.next (hread (r := .freshId) trivial hw) fun id w hw => ?_
      refine Rules.Yields.next (hask (.request trivial) hw) fun _ w _ => ?_
      exact Rules.Yields.mono (startRail_untaken _ w) (fun _ _ h => h) fun _ _ h => .inl h

/-! ## Serial runs -/

theorem Run.indexed (h : Run s σ σ') (ho : σ.Orderly) (hi : σ.world.deposits.Indexed) :
    σ'.world.deposits.Indexed :=
  h.invariant (I := fun w => w.deposits.Indexed) ho (fun _ _ hs he hi => he.indexed hs hi) hi

/-- In every serial run a transfer is ordered only for a deposit that is stored as created at that
moment, and never again under the reference of one that has left that stage. An initiation that
finds its reference taken has sent nothing, unless the script has made an update fail in that way.
-/
theorem nothing_ordered_again (hs : w.Sound) (hi : w.deposits.Indexed)
    (hrun : SerialRun s { world := w } σ) (hrun' : SerialRun s σ σ') :
    (∀ v o, ⟨v, .createTransfer o⟩ ∈ σ'.history → v.Awaits o.reference) ∧
      (∀ id d, σ.world.deposits.get? id = some d → d.status ≠ .created →
        ∀ v o, ⟨v, .createTransfer o⟩ ∈ σ'.since σ → o.reference ≠ d.reference) ∧
      ∀ user railAccount amount reference taken, (∀ a ∈ σ.running, a.ended) →
        σ'.running = σ.running ++ [⟨.initiate user railAccount amount reference,
          .done (.deposit (.error (.duplicateReference taken)))⟩] →
        (∀ x ∈ σ'.since σ, x.honest) → σ'.world.outbound = σ.world.outbound := by
  have hidle := System.orderly_of_idle hs
  have hall : SerialRun s { world := w } σ' := hrun.trans hrun'
  have ho := (SerialRun.run hrun).orderly hidle
  have hawaits : ∀ v o, ⟨v, .createTransfer o⟩ ∈ σ'.history → v.Awaits o.reference := by
    intro v o hx
    have hpermitted := SerialRun.permitted (R := orderRules) hall (fun _ ha => nomatch ha)
      (fun _ ha => nomatch ha) program_waits (fun _ _ hd => hd.quiet.deposits)
      (fun τ hτ _ => (Run.orderly hτ hidle).sound) ⟨v, .createTransfer o⟩
    refine hpermitted ?_
    have hsince := (SerialRun.run hall).since
    rw [List.append_nil] at hsince
    rwa [← hsince]
  refine ⟨hawaits, ?_, ?_⟩
  · intro id d hd hst v o hx href
    obtain ⟨τ, _, _, _, _, hτ, -, hv⟩ := turn_of_mem (fun _ _ => And.left) hrun' hx
    obtain ⟨e, he, hcreated, heref⟩ := hawaits v o (List.mem_of_mem_take hx)
    have hrunτ := SerialRun.run hτ
    have hv : τ.world = v := hv
    subst hv
    obtain ⟨d', hd', hl⟩ := (hrunτ.later ho).deposits hd
    have hd'ref : d'.reference = d.reference := congrArg Deposit.Origin.reference hl.origin
    have hindexed := hrunτ.indexed ho ((SerialRun.run hrun).indexed hidle hi)
    have hid := hindexed.reference_inj he hd' (heref.trans (href.trans hd'ref.symm))
    rw [hid, hd'] at he
    cases he
    exact Deposit.Leads.left hl hst hcreated
  · intro user railAccount amount reference taken hended hres hhonest
    have hsolo := Run.solo (R := quietRules)
      (Q := fun res w => res = .deposit (.error (.duplicateReference taken)) →
        w.outbound = σ.world.outbound) (SerialRun.run hrun')
      (fun _ _ _ hw h he => Eq.trans hw (h he)) (fun _ _ hd => hd.outbound) hended
      (fun v hv => ?_) ?_ hres
    · exact hsolo rfl
    · have hv : v.outbound = σ.world.outbound := hv
      refine Rules.Keeps.map (Rules.Keeps.mono
        (initiate_untaken user railAccount amount reference hv) ?_)
      rintro (e | d) w he heq
      · cases heq
        exact he.resolve_left fun hu => hu taken rfl
      · cases heq
    · intro x hx
      refine ⟨?_, hhonest x hx⟩
      have hsound := (SerialRun.run hall).history_sound hs
      exact hsound x (List.mem_of_mem_take hx)

theorem honest_of_no_faults {x : Exchange} (h : x.before.script = {}) : x.honest := by
  obtain ⟨v, r⟩ := x
  have hv : v.script = {} := h
  cases r with
  | updateDeposit d expected =>
      simp [Exchange.honest, hv, Script.fault?, Script.updateFault?, Script.takeFirst]
  | _ => trivial

namespace Sample

/-- What has been taken in is asked for again. -/
def again (now : Instant) : System :=
  (begun now).alone .standard (.initiate user account.railAccount amount "reference")

def falselyTaken : Failure := .duplicateReference "reference"

/-- A deposit is ordered for, and the store then calls its reference taken. -/
def misled : System :=
  let script : Script := { faults := [(.depositsUpdate, falselyTaken)] }
  System.alone { world := { world .epoch with script := script } } .standard
    (.initiate user account.railAccount amount "reference")

theorem serial_begun (now : Instant) : SerialRun .standard { world := world now } (begun now) :=
  serial_alone (by simp) _

end Sample

/-- Asking twice orders once. -/
theorem sample_is_ordered_once :
    (∀ v o, ⟨v, .createTransfer o⟩ ∈ (Sample.again .epoch).history → v.Awaits o.reference) ∧
      (Sample.again .epoch).world.outbound = (Sample.begun .epoch).world.outbound := by
  have hended : ∀ a ∈ (Sample.begun .epoch).running, a.ended := by decide
  have hhonest : ∀ x ∈ (Sample.again .epoch).since (Sample.begun .epoch), x.honest := by
    have hscript : ∀ x ∈ (Sample.again .epoch).since (Sample.begun .epoch),
        x.before.script = {} := by
      decide
    exact fun x hx => honest_of_no_faults (hscript x hx)
  have hres : (Sample.again .epoch).running = (Sample.begun .epoch).running ++
      [⟨.initiate Sample.user Sample.account.railAccount Sample.amount "reference",
        .done (.deposit (.error (.duplicateReference "reference")))⟩] := rfl
  obtain ⟨hawaits, -, hsilent⟩ := nothing_ordered_again (w := Sample.world .epoch)
    ⟨Store.Deposits.Sound.empty, rfl⟩ Store.Deposits.Indexed.empty (Sample.serial_begun .epoch)
    (serial_alone hended _)
  exact ⟨hawaits, hsilent _ _ _ _ _ hended hres hhonest⟩

/-- An update that fails as if its reference were taken makes an initiation say so after its order.
-/
theorem taken_after_order :
    ¬ ∀ (s : Settings) (w : World) (σ : System) (user : Uuid) (railAccount : String)
        (amount : Amount) (reference taken : String), w.deposits = {} → w.script.race = none →
        SerialRun s { world := w } σ →
        σ.running = [⟨.initiate user railAccount amount reference,
          .done (.deposit (.error (.duplicateReference taken)))⟩] →
        σ.world.outbound = w.outbound := by
  intro h
  have hsent := h .standard _ Sample.misled Sample.user Sample.account.railAccount Sample.amount
    "reference" "reference" rfl rfl (serial_alone (by simp) _) rfl
  exact absurd hsent (by decide)

end Crossing

end Causeway
