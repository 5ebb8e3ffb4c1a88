import Causeway.Proofs.Store.Deposits
import Causeway.Proofs.World.Perform

/-!
# Requests that pass a deposit by

What is done for other deposits leaves a deposit, its entry in the index and the transfers on the rail
as they are (`perform_beside`).
-/

namespace Causeway.World

variable {w w' w'' : World} {id : Uuid} {r : Request}

structure Aside (id : Uuid) (w w' : World) : Prop where
  stored : w'.deposits.get? id = w.deposits.get? id
  linked : ∀ ⦃transfer⦄, w.deposits.byTransfer.get? transfer = some id →
    w'.deposits.byTransfer.get? transfer = some id
  held : ∀ ⦃reference t⦄, w.rail.findReference? reference = some t →
    w'.rail.findReference? reference = some t
  race : w.script.race = none → w'.script.race = none

theorem Aside.refl (id : Uuid) (w : World) : Aside id w w :=
  ⟨rfl, fun _ h => h, fun _ _ h => h, fun h => h⟩

theorem Aside.trans (h : Aside id w w') (h' : Aside id w' w'') : Aside id w w'' where
  stored := h'.stored.trans h.stored
  linked := fun _ hl => h'.linked (h.linked hl)
  held := fun _ _ ht => h'.held (h.held ht)
  race := fun hr => h'.race (h.race hr)

/-- The requests of an order for another deposit. -/
def Beside (id : Uuid) : Request → Prop
  | .updateDeposit d _ => d.id ≠ id
  | .now | .createTransfer _ | .isAborted | .isCancelled | .pause _ => True
  | _ => False

theorem findReference?_create {s : Rail.Sandbox} {reference : String} {t : Rail.Transfer}
    (o : Rail.Order) (fresh : Uuid) (h : s.findReference? reference = some t) :
    (s.create o fresh).2.findReference? reference = some t := by
  unfold Rail.Sandbox.findReference? at h
  unfold Rail.Sandbox.create Rail.Sandbox.findReference?
  dsimp only
  cases s.createFailures with
  | cons e es => exact h
  | nil =>
      by_cases ha : o.amount ≤ .zero
      · simp only [ha, if_true]
        exact h
      · simp only [ha, if_false]
        split
        · exact h
        · simp [List.find?_append, h]

theorem createTransfer_aside (w : World) (o : Rail.Order) :
    ∃ a w', w.perform (.createTransfer o) = (.ok a, w') ∧ Aside id w w' := by
  have hheld : ∀ reference t, w.rail.findReference? reference = some t →
      (w.rail.create o (w.ids w.drawn)).2.findReference? reference = some t :=
    fun _ _ h => findReference?_create o (w.ids w.drawn) h
  simp only [perform, createTransfer, send, freshId]
  split
  all_goals
    rename_i hcreate
    obtain ⟨ms, hms⟩ := delayed_answer _ _ _
    obtain ⟨c, hc, hrace⟩ := delayed_world _ _ _
    rw [hcreate] at hheld
    exact ⟨_, _, Prod.ext hms hc, rfl, fun _ h => h, hheld, hrace.trans⟩

theorem updateDeposit_aside (hrace : w.script.race = none) {d : Deposit}
    {expected : Deposit.Status} (hd : d.id ≠ id) :
    ∃ a w', w.perform (.updateDeposit d expected) = (.ok a, w') ∧ Aside id w w' := by
  simp only [perform, contestedUpdate, guarded]
  cases hf : w.script.fault? .depositsUpdate with
  | some f => exact ⟨_, _, rfl, rfl, fun _ h => h, fun _ _ h => h, (race_of_fault hf).trans⟩
  | none =>
      cases hu : w.script.updateFault? d.status with
      | some f => exact ⟨_, _, rfl, rfl, fun _ h => h, fun _ _ h => h, (race_of_updateFault hu).trans⟩
      | none =>
          simp only [race, hrace, updateDeposit]
          cases hs : w.deposits.update d expected with
          | error e => exact ⟨_, _, rfl, .refl id w⟩
          | ok deposits =>
              refine ⟨_, _, rfl, ?_, ?_, fun _ _ h => h, fun h => h⟩
              · exact (Store.Deposits.get?_update hs).trans (if_neg hd)
              · intro transfer hlink
                exact Store.Deposits.byTransfer_update hs hd hlink

theorem perform_beside (h : Beside id r) (hrace : w.script.race = none) :
    ∃ a w', w.perform r = (.ok a, w') ∧ Aside id w w' := by
  cases r with
  | updateDeposit d expected => exact updateDeposit_aside hrace h
  | createTransfer o => exact createTransfer_aside w o
  | now => exact ⟨_, _, rfl, rfl, fun _ h => h, fun _ _ h => h, fun h => h⟩
  | pause ms => exact ⟨_, _, rfl, rfl, fun _ h => h, fun _ _ h => h, fun h => h⟩
  | isAborted => exact ⟨_, _, rfl, .refl id w⟩
  | isCancelled => exact ⟨_, _, rfl, .refl id w⟩
  | _ => exact h.elim

end Causeway.World
