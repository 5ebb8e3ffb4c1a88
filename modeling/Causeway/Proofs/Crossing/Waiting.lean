import Causeway.Proofs.Crossing.Marking
import Causeway.Proofs.Crossing.Matching
import Causeway.Proofs.Crossing.Onward
import Causeway.Proofs.Crossing.Serial

/-!
# Only deposits that wait are ordered for

While one operation at a time is in progress, a transfer is ordered only for a deposit that is
stored as created at that moment. Hence nothing is ordered again for a deposit that has left that
stage.
-/

namespace Causeway.World

variable {w w' : World} {reference : String}

/-- A deposit under the reference still waits for its transfer. -/
def Awaits (w : World) (reference : String) : Prop :=
  ∃ d, w.deposits.get? d.id = some d ∧ d.status = .created ∧ d.reference = reference

theorem Effect.indexed (h : Effect w w') (hs : w.Sound) (hi : w.deposits.Indexed) :
    w'.deposits.Indexed := by
  cases h with
  | quiet hq => rw [hq.deposits]; exact hi
  | created hc => exact hi.create rfl hc
  | @moved cur d e now _ hcur ha hb hu =>
      have hid : d.id = cur.id := congrArg Deposit.Origin.id (Deposit.origin_of_apply ha)
      rw [← hid] at hcur
      exact hi.update hcur ((hs.deposits.coherent hcur).extends ha).transfer hu
  | counted hd hf => exact hi
  | paid hd hset ha hkey hq hdrawn hfund hby => rw [show _ = _ from hq.deposits]; exact hi

end Causeway.World

namespace Causeway.Crossing

open Deposit (Event Status)
open World (SameBut)

variable {s : Settings} {σ σ' : System} {w w' : World} {d : Deposit}

/-- One operation: the others leave the deposits as they are, and only those that wait are ordered
for. -/
def orderRules : Rules where
  assumes w _ := w.Sound
  rely w w' := w'.deposits = w.deposits
  permits w
    | .createTransfer o => w.Awaits o.reference
    | _ => True
  refl := soloRules.refl
  trans := soloRules.trans

theorem Onward.permitted (w : World) (r : Request) (h : Onward r) : orderRules.permits w r := by
  cases r with
  | createTransfer o => exact h.elim
  | _ => trivial

/-! ## One deposit -/

/-- The requests of the attempts to order under a reference. -/
def Attempts (reference : String) : Request → Prop
  | .createTransfer o => o.reference = reference
  | .isAborted | .pause _ => True
  | _ => False

theorem Attempts.spares {deposits : Store.Deposits} {reference : String}
    (hd : ∃ d, deposits.get? d.id = some d ∧ d.status = .created ∧ d.reference = reference)
    (r : Request) (hr : Attempts reference r) :
    orderRules.Spares (fun w => w.deposits = deposits) r := by
  intro w w' hw hrely _
  have hw' : w'.deposits = deposits := Eq.trans hrely hw
  cases r with
  | createTransfer o =>
      have hr : o.reference = reference := hr
      have hawaits : w'.Awaits o.reference := by
        unfold World.Awaits
        rw [hr, hw']
        exact hd
      exact ⟨hawaits, (w'.createTransfer_quiet o).deposits.trans hw'⟩
  | isAborted => exact ⟨trivial, hw'⟩
  | pause ms => exact ⟨trivial, hw'⟩
  | _ => exact hr.elim

/-- The requests that may write the deposit itself, and nothing else. -/
def Writes (id : Uuid) : Request → Prop
  | .updateDeposit d _ => d.id = id
  | .now | .isAborted => True
  | _ => False

theorem Writes.spares (id : Uuid) (w : World) (r : Request) (hr : Writes id r) :
    orderRules.Spares (SameBut id w) r := by
  intro v v' hv hrely hs
  have hsame : v'.deposits = v.deposits := hrely
  have hv' : SameBut id w v' := fun id' hne => by rw [hsame]; exact hv id' hne
  cases r with
  | updateDeposit d expected =>
      have hr : d.id = id := hr
      refine ⟨trivial, fun id' hne => ?_⟩
      rcases World.updateDeposit_cases hs.race d expected with ⟨_, _, he, hq⟩ | ⟨_, hu, he⟩
      · rw [he, hq.deposits]
        exact hv' id' hne
      · rw [he]
        refine (Store.Deposits.get?_update hu).trans ?_
        rw [if_neg (hr ▸ hne.symm)]
        exact hv' id' hne
  | now => exact ⟨trivial, hv'⟩
  | isAborted => exact ⟨trivial, hv'⟩
  | _ => exact hr.elim

/-- The order is placed while the deposit waits, and then no other deposit is written. -/
theorem startRail_waits (hd : w.deposits.get? d.id = some d) (hst : d.status = .created) :
    orderRules.Yields (startRail s d) (fun _ => SameBut d.id w) (fun _ => SameBut d.id w) w := by
  have hattempts := (only_convert (p := s.provider) (r := request s d) (P := Attempts d.reference)
    rfl fun _ => trivial).retrying trivial (fun _ => trivial) (policy s)
  have horder := Rules.Keeps.spared (Attempts.spares ⟨d, hd, hst, rfl⟩) hattempts rfl
  have hwrite : ∀ {e : Event} {now : Instant} {d' : Deposit}, d.apply e now = .ok d' →
      (update d' .created).run.Only (Writes d.id) := fun h =>
    .request (congrArg Deposit.Origin.id (Deposit.origin_of_apply h))
  have hrest {α : Type} {t : Action α} {w' : World} (ht : t.run.Only (Writes d.id))
      (hw : w'.deposits = w.deposits) :
      orderRules.Yields t (fun _ => SameBut d.id w) (fun _ => SameBut d.id w) w' := by
    refine Rules.Keeps.mono (Rules.Keeps.spared (Writes.spares d.id w) ht
      fun _ _ => by rw [hw]) fun r v hv => ?_
    cases r <;> exact hv
  refine Rules.Yields.bind (Q := fun _ => SameBut d.id w) (Rules.Yields.result ?_)
  refine Rules.Keeps.mono horder fun r w' hw => ?_
  cases r with
  | ok response => exact hrest (only_mark trivial fun _ _ h => (hwrite h).seq fun _ => trivial) hw
  | error e =>
      refine hrest (Program.Only.seq (.lift (.request trivial)) fun aborted => ?_) hw
      split
      · trivial
      · exact only_mark trivial fun _ _ h => (hwrite h).result.seq fun _ => trivial

/-! ## All operations -/

theorem initiate_waits (user : Uuid) (railAccount : String) (amount : Amount) (reference : String)
    (w : World) :
    orderRules.Safe (initiate s user railAccount amount reference) (fun _ _ => True) w := by
  unfold initiate
  dsimp only
  refine Rules.Safe.unless fun _ => ?_
  refine Rules.Safe.bind (Rules.Safe.askFree
    (Rules.Keeps.free (.accountByRail railAccount) (fun _ => trivial) w)) fun found w _ => ?_
  refine Rules.Safe.bind (Rules.Safe.orNotFound _ _ found w) fun account w _ => ?_
  refine Rules.Safe.unless fun _ => ?_
  refine Rules.Safe.bind (Rules.Safe.lift .now (fun _ => trivial) w) fun now w _ => ?_
  refine Rules.Safe.bind (Rules.Safe.lift .freshId (fun _ => trivial) w) fun id w _ => ?_
  set d := Deposit.start id user account.id reference amount s.crossing.currency now
  have hcreate : orderRules.Safe (Action.ask (Program.request (.createDeposit d)))
      (fun _ w => w.deposits.get? d.id = some d) w := by
    refine Rules.Safe.ask (Rules.Keeps.request fun w' _ _ => ⟨trivial, fun r hr _ ho => ?_⟩)
    subst ho
    rcases World.createDeposit_cases w' d with ⟨_, _, he, _⟩ | ⟨_, hc, he⟩
    · rw [he] at hr; cases hr
    · rw [he]
      exact (Store.Deposits.get?_create hc).trans (if_pos rfl)
  refine Rules.Safe.bind hcreate fun _ w hd => ?_
  exact Rules.Keeps.mono (startRail_waits hd rfl) fun r _ _ => by cases r <;> trivial

/-- The deposits of the list are stored as they are in it, and wait. -/
def Wait (ds : List Deposit) (w : World) : Prop :=
  ∀ d ∈ ds, w.deposits.get? d.id = some d ∧ d.status = .created

/-- A deposit is visited once, so those behind it still wait when it has been. -/
theorem visitAll_waits (now : Instant) (report : Report) (ds : List Deposit) (w : World)
    (hds : (ds.map (·.id)).Nodup) (h : Wait ds w) :
    orderRules.Keeps (visitAll (visitCreated s now) report ds) (fun _ _ => True) w := by
  induction ds generalizing report w with
  | nil => trivial
  | cons d ds ih =>
      rw [List.map_cons, List.nodup_cons] at hds
      refine Rules.Keeps.bind (Rules.Keeps.request fun w' hw _ => ⟨trivial, fun b _ => ?_⟩)
      have hsame : w'.deposits = w.deposits := hw
      have h' : Wait (d :: ds) w' := fun e he => by rw [hsame]; exact h e he
      cases b with
      | true => trivial
      | false =>
          refine Rules.Keeps.bind (Rules.Keeps.mono (Q := fun _ => SameBut d.id w') ?_ ?_)
          · unfold visitCreated
            split
            · exact fun _ _ => rfl
            · obtain ⟨hd, hst⟩ := h' d (by simp)
              refine Rules.Keeps.bind (Rules.Keeps.mono (startRail_waits hd hst) fun r v hv => ?_)
              cases r <;> exact hv
          · intro report v hv
            refine ih report v hds.2 fun e he => ?_
            have hne : e.id ≠ d.id := fun heq => hds.1 (heq ▸ List.mem_map_of_mem he)
            rw [hv e.id hne]
            exact h' e (by simp [he])

theorem depositsIn_waits (w : World) :
    orderRules.Safe (depositsIn .created) (fun ds w => (ds.map (·.id)).Nodup ∧ Wait ds w) w := by
  refine Rules.Safe.ask (Rules.Keeps.request fun w' _ hs => ⟨trivial, fun r hr ds hds => ?_⟩)
  subst hds
  obtain ⟨rfl, hw⟩ := World.look_ok hr
  rw [show (w'.perform (.depositsIn .created)).2 = w' from hw]
  exact ⟨Store.Deposits.nodup_withStatus hs.deposits _, fun d hd =>
    (Store.Deposits.mem_withStatus hs.deposits).mp hd⟩

theorem program_waits (op : Operation) (w : World) :
    orderRules.Keeps (op.program s) (fun _ _ => True) w := by
  refine program_of_onward Onward.permitted initiate_waits (fun now report w => ?_) op w
  refine Rules.Safe.mono (depositsIn_waits w) fun ds w ⟨hdistinct, hds⟩ => Rules.Yields.lift ?_
  exact visitAll_waits now report ds w hdistinct hds

end Causeway.Crossing
