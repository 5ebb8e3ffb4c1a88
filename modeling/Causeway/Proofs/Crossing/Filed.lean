import Causeway.Proofs.Crossing.Callbacks
import Causeway.Proofs.Crossing.Reached
import Causeway.Proofs.Store.References

/-!
# References that are taken once

Whatever is requested, no two deposits and no two transfers come to share a reference
(`Filed.perform`), and no deposit, transfer or account is lost (`Filed.retains`). So the exchanges of
a run stand in order: each finds what an earlier one has left (`Logged.inOrder`).
-/

namespace Causeway

open Store.Deposits (Write)

variable {w w' w'' : World} {d : Deposit} {reference railAccount : String} {r : Request}

namespace World

/-- No two deposits and no two transfers share a reference, and nobody but the operations writes
deposits. -/
structure Filed (w : World) : Prop where
  race : w.script.race = none
  deposits : w.deposits.Referenced
  transfers : (w.rail.origins.map (·.reference)).Nodup

/-- No deposit, transfer or account is lost. -/
structure Retains (w w' : World) : Prop where
  deposits : w.deposits.KeepsReferences w'.deposits
  transfers : w.rail.origins <+: w'.rail.origins
  accounts : w.accounts.values <+: w'.accounts.values

/-- A deposit is stored under the reference. -/
def Holds (w : World) (reference : String) : Prop :=
  ∃ id d, w.deposits.get? id = some d ∧ d.reference = reference

theorem Retains.refl (w : World) : Retains w w := ⟨.refl _, List.prefix_rfl, List.prefix_rfl⟩

theorem Retains.trans (h : Retains w w') (h' : Retains w' w'') : Retains w w'' :=
  ⟨h.deposits.trans h'.deposits, h.transfers.trans h'.transfers, h.accounts.trans h'.accounts⟩

theorem Holds.retained (h : w.Holds reference) (hw : Retains w w') : w'.Holds reference := by
  obtain ⟨id, d, hd, href⟩ := h
  obtain ⟨d', hd', href'⟩ := hw.deposits id d hd
  exact ⟨id, d', hd', href'.trans href⟩

/-- The first account under a name of the rail stays the first. -/
theorem Retains.accountByRail? (h : Retains w w') {a : VirtualAccount}
    (ha : w.accountByRail? railAccount = some a) : w'.accountByRail? railAccount = some a :=
  h.accounts.find?_eq_some ha

/-! ## Requests -/

/-- A request writes one deposit, or leaves the deposits as they are. -/
theorem perform_writes (hrace : w.script.race = none) (r : Request) :
    (w.perform r).2.deposits = w.deposits ∨
      ∃ wr : Write, wr.run w.deposits = .ok (w.perform r).2.deposits := by
  by_cases hcreate : ∃ d, r = .createDeposit d
  · obtain ⟨d, rfl⟩ := hcreate
    rcases w.createDeposit_cases d with ⟨_, _, he, hq⟩ | ⟨_, hc, he⟩
    · exact .inl (by rw [he]; exact hq.deposits)
    · exact .inr ⟨.create d, by rw [he]; exact hc⟩
  by_cases hupdate : ∃ d expected, r = .updateDeposit d expected
  · obtain ⟨d, expected, rfl⟩ := hupdate
    rcases updateDeposit_cases hrace d expected with ⟨_, _, he, hq⟩ | ⟨_, hu, he⟩
    · exact .inl (by rw [he]; exact hq.deposits)
    · exact .inr ⟨.update d expected, by rw [he]; exact hu⟩
  exact .inl (w.perform_deposits (fun d hd => hcreate ⟨d, hd⟩)
    fun d expected hd => hupdate ⟨d, expected, hd⟩)

theorem Filed.retains (h : w.Filed) (r : Request) : Retains w (w.perform r).2 where
  deposits := by
    rcases perform_writes h.race r with hsame | ⟨wr, hr⟩
    · rw [hsame]
      exact .refl _
    · exact Store.Deposits.keepsReferences_run hr
  transfers := w.perform_origins r
  accounts := (w.perform_accounts r) ▸ List.prefix_rfl

theorem guarded_race {α : Type} {call : StoreCall} {act : World → Outcome (Except Failure α)}
    (h : w.script.race = none) (hact : (act w).2.script.race = none) :
    (w.guarded call act).2.script.race = none := by
  rcases guarded_cases w call act with ⟨_, _, he, hq⟩ | ⟨_, he⟩
  · rw [he]
    exact hq.race h
  · rwa [he]

theorem perform_race (h : w.script.race = none) (r : Request) :
    (w.perform r).2.script.race = none := by
  by_cases hquiet : quiet r
  · exact (perform_quiet hquiet w).race h
  cases r with
  | createDeposit d =>
      rcases w.createDeposit_cases d with ⟨_, _, he, hq⟩ | ⟨_, _, he⟩
      · rw [he]
        exact hq.race h
      · rw [he]
        exact h
  | updateDeposit d expected =>
      rcases updateDeposit_cases h d expected with ⟨_, _, he, hq⟩ | ⟨_, _, he⟩
      · rw [he]
        exact hq.race h
      · rw [he]
        exact h
  | incrementUsage _ _ _ | applyUsage _ _ _ | resetUsage _ => exact guarded_race h h
  | fundAccount key account amount =>
      rcases w.fundAccount_cases key account amount with ⟨_, _, hq, _⟩ | ⟨_, _, _, hq, _⟩
      · exact hq.race h
      · exact hq.race h
  | _ => exact absurd rfl hquiet

theorem nodup_references_perform (h : (w.rail.origins.map (·.reference)).Nodup) (r : Request) :
    ((w.perform r).2.rail.origins.map (·.reference)).Nodup := by
  by_cases horder : ∃ o, r = .createTransfer o
  · obtain ⟨o, rfl⟩ := horder
    obtain ⟨_, -, ⟨hsame, -⟩ | ⟨hnew, -, hmade, -⟩⟩ := w.createTransfer_cases o
    · rwa [Rail.Sandbox.origins, hsame]
    · rw [Rail.Sandbox.origins, hmade, List.map_append]
      exact Rail.Sandbox.nodup_references_snoc h hnew
  · rwa [Rail.Sandbox.origins, w.perform_transfers fun o ho => horder ⟨o, ho⟩]

theorem Filed.perform (h : w.Filed) (r : Request) : (w.perform r).2.Filed where
  race := perform_race h.race r
  deposits := by
    rcases perform_writes h.race r with hsame | ⟨wr, hr⟩
    · rw [hsame]
      exact h.deposits
    · exact h.deposits.run hr
  transfers := nodup_references_perform h.transfers r

/-! ## Deposits that are taken in -/

/-- A deposit goes in under its reference. -/
theorem holds_of_created (h : (w.perform (.createDeposit d)).1 = .ok (.ok ())) :
    (w.perform (.createDeposit d)).2.Holds d.reference := by
  rcases w.createDeposit_cases d with ⟨_, _, he, _⟩ | ⟨deposits, hc, he⟩
  · rw [he] at h
    cases h
  · rw [he]
    exact ⟨d.id, d, (Store.Deposits.get?_create hc).trans (if_pos rfl), rfl⟩

/-- Under a reference that is taken nothing goes in. -/
theorem Filed.create_refused (h : w.Filed) (hheld : w.Holds d.reference) :
    (∃ e c, w.perform (.createDeposit d) = (.ok (.error e), { w with script := c })) ∧
      (w.script.fault? .depositsCreate = none →
        w.perform (.createDeposit d) = (.ok (.error (.duplicateReference d.reference)), w)) := by
  obtain ⟨id, d', hd', href⟩ := hheld
  have hindex := (h.deposits d.reference id).mpr ⟨d', hd', href⟩
  have hrefused : w.createDeposit d = (.ok (.error (.duplicateReference d.reference)), w) := by
    simp only [createDeposit, Store.Deposits.create, Table.contains, hindex, Option.isSome_some,
      if_true]
  simp only [World.perform, guarded]
  cases w.script.fault? .depositsCreate with
  | some f => exact ⟨⟨f.1, f.2, rfl⟩, fun hf => absurd hf (Option.some_ne_none f)⟩
  | none => exact ⟨⟨_, w.script, hrefused⟩, fun _ => hrefused⟩

theorem filed_of_empty (hd : w.deposits = {}) (ht : w.rail.transfers = [])
    (hrace : w.script.race = none) : w.Filed where
  race := hrace
  deposits := by
    rw [hd]
    exact Store.Deposits.Indexed.empty.reference
  transfers := by
    rw [Rail.Sandbox.origins, ht]
    exact List.nodup_nil

end World

namespace Crossing

open World (Filed Retains)

variable {s : Settings} {σ₀ σ σ' : System} {log : Log}

/-! ## Runs -/

theorem Disturbance.retains (h : Disturbance w w') : Retains w w' where
  deposits := by
    rw [h.quiet.deposits]
    exact .refl _
  transfers := h.origins ▸ List.prefix_rfl
  accounts := by
    cases h with
    | complete transfer =>
        unfold World.completeTransfer
        split <;> exact List.prefix_rfl
    | setState transfer state =>
        unfold World.setTransferState
        split <;> exact List.prefix_rfl
    | addAccount a hnew =>
        rw [World.addAccount, Table.values_insert_of_new hnew]
        exact List.prefix_append ..
    | _ => exact List.prefix_rfl

theorem Disturbance.filed (h : Disturbance w w') (hw : w.Filed) : w'.Filed where
  race := h.quiet.race hw.race
  deposits := by
    rw [h.quiet.deposits]
    exact hw.deposits
  transfers := by
    rw [h.origins]
    exact hw.transfers

theorem Step.filed (h : Step s σ σ') (hσ : σ.world.Filed) :
    σ'.world.Filed ∧ Retains σ.world σ'.world := by
  cases h with
  | start op => exact ⟨hσ, .refl _⟩
  | turn hr => exact ⟨hσ.perform _, hσ.retains _⟩
  | disturb hd => exact ⟨hd.filed hσ, hd.retains⟩

theorem Run.filed (h : Run s σ σ') (hσ : σ.world.Filed) :
    σ'.world.Filed ∧ Retains σ.world σ'.world := by
  induction h with
  | refl => exact ⟨hσ, .refl _⟩
  | tail _ hstep ih =>
      obtain ⟨hfiled, hretains⟩ := hstep.filed ih.1
      exact ⟨hfiled, ih.2.trans hretains⟩

theorem Reached.filed (h : Reached s w) : w.Filed := by
  induction h with
  | empty hd ht hrace => exact World.filed_of_empty hd ht hrace
  | run _ hrun ih => exact (hrun.filed ih).1
  | crash _ ih => exact ⟨ih.race, ih.deposits, ih.transfers⟩

/-- Each exchange of the log finds what an earlier one has left. -/
structure Log.InOrder (log : Log) (σ : System) : Prop where
  now : σ.world.Filed
  filed : ∀ x ∈ log, x.2.before.Filed
  kept : ∀ x ∈ log, Retains x.2.after σ.world
  order : log.Pairwise fun x y => Retains y.2.after x.2.before

theorem Logged.inOrder (h : Logged s σ₀ σ log) (h₀ : σ₀.world.Filed) : log.InOrder σ := by
  induction h with
  | refl => exact ⟨h₀, by simp, by simp, .nil⟩
  | start _ op ih => exact ⟨ih.now, ih.filed, ih.kept, ih.order⟩
  | @turn σ log _ before behind op r k hr ih =>
      have hretains := ih.now.retains r
      refine ⟨ih.now.perform r, ?_, ?_, List.pairwise_cons.mpr ⟨ih.kept, ih.order⟩⟩
      · exact List.forall_mem_cons.mpr ⟨ih.now, ih.filed⟩
      · exact List.forall_mem_cons.mpr ⟨.refl _, fun x hx => (ih.kept x hx).trans hretains⟩
  | disturb _ hd ih =>
      exact ⟨hd.filed ih.now, ih.filed, fun x hx => (ih.kept x hx).trans hd.retains, ih.order⟩

end Crossing

end Causeway
