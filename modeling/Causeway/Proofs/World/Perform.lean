import Causeway.World.Perform

/-!
# What requests answer and leave behind

Most requests leave what is stored alone (`perform_quiet`). Each of the others either meets a fault,
which does so too, or does to one store what that store's operation does.
-/

namespace Causeway.World

variable {w : World} {α : Type}

/-- What the stores and the brokerage hold is the same, save for accounts that have been opened. -/
structure Quiet (w w' : World) : Prop where
  deposits : w'.deposits = w.deposits
  usages : w'.usages = w.usages
  accounts : ∀ ⦃id a⦄, w.accounts.get? id = some a → w'.accounts.get? id = some a
  fundings : w'.brokerage.fundings = w.brokerage.fundings
  byKey : w'.brokerage.byKey = w.brokerage.byKey
  race : w.script.race = none → w'.script.race = none
  clock : w'.clock = w.clock
  readings : w.readings ≤ w'.readings
  ids : w'.ids = w.ids
  drawn : w.drawn ≤ w'.drawn

theorem Quiet.refl (w : World) : Quiet w w :=
  ⟨rfl, rfl, fun _ _ h => h, rfl, rfl, id, rfl, Nat.le_refl _, rfl, Nat.le_refl _⟩

theorem quiet_script {c : Script} (h : c.race = w.script.race) : Quiet w { w with script := c } :=
  { Quiet.refl w with race := h.trans }

/-! ## Faults -/

theorem race_of_fault {c c' : Script} {call : StoreCall} {e : Failure}
    (h : c.fault? call = some (e, c')) : c'.race = c.race := by
  unfold Script.fault? at h
  obtain ⟨x, _, hx⟩ := Option.map_eq_some_iff.mp h
  cases hx; rfl

theorem race_of_updateFault {c c' : Script} {status : Deposit.Status} {e : Failure}
    (h : c.updateFault? status = some (e, c')) : c'.race = c.race := by
  unfold Script.updateFault? at h
  obtain ⟨x, _, hx⟩ := Option.map_eq_some_iff.mp h
  cases hx; rfl

theorem race_delay (c : Script) (call : OutboundCall) : (c.delay call).2.race = c.race := by
  unfold Script.delay
  split <;> rfl

theorem guarded_of_none {call : StoreCall} {act : World → Outcome (Except Failure α)}
    (h : w.script.fault? call = none) : w.guarded call act = act w := by
  simp only [guarded, h]

theorem guarded_cases (w : World) (call : StoreCall)
    (act : World → Outcome (Except Failure α)) :
    (∃ e w', w.guarded call act = (.ok (.error e), w') ∧ Quiet w w') ∨
      w.script.fault? call = none ∧ w.guarded call act = act w := by
  cases h : w.script.fault? call with
  | some f =>
      refine Or.inl ⟨f.1, { w with script := f.2 }, ?_, quiet_script (race_of_fault h)⟩
      simp only [guarded, h]
  | none => exact Or.inr ⟨rfl, guarded_of_none h⟩

theorem look_cases (w : World) (call : StoreCall) (answer : World → α) :
    (∃ e w', w.look call answer = (.ok (.error e), w') ∧ Quiet w w') ∨
      w.look call answer = (.ok (.ok (answer w)), w) :=
  (guarded_cases w call _).imp_right And.right

/-- A look-up that is answered is answered by the store, and leaves the world as it was. -/
theorem look_ok {call : StoreCall} {answer : World → α} {a : α}
    (h : (w.look call answer).1 = .ok (.ok a)) :
    a = answer w ∧ (w.look call answer).2 = w := by
  rcases look_cases w call answer with ⟨e, w', he, _⟩ | he
  · rw [he] at h; cases h
  · rw [he] at h ⊢; cases h; exact ⟨rfl, rfl⟩

theorem look_quiet (w : World) (call : StoreCall) (answer : World → α) :
    Quiet w (w.look call answer).2 := by
  rcases look_cases w call answer with ⟨e, w', h, hq⟩ | h
  · rw [h]; exact hq
  · rw [h]; exact .refl w

/-! ## The stores -/

theorem createDeposit_cases (w : World) (d : Deposit) :
    (∃ e w', w.perform (.createDeposit d) = (.ok (.error e), w') ∧ Quiet w w') ∨
      ∃ deposits, w.deposits.create d = .ok deposits ∧
        w.perform (.createDeposit d) = (.ok (.ok ()), { w with deposits }) := by
  simp only [perform]
  rcases guarded_cases w .depositsCreate (·.createDeposit d) with h | ⟨_, h⟩
  · exact Or.inl h
  · rw [h]
    cases hc : w.deposits.create d with
    | ok deposits => exact Or.inr ⟨deposits, rfl, by simp only [createDeposit, hc]⟩
    | error e => exact Or.inl ⟨e, w, by simp only [createDeposit, hc], .refl w⟩

theorem updateDeposit_cases (hrace : w.script.race = none) (d : Deposit)
    (expected : Deposit.Status) :
    (∃ e w', w.perform (.updateDeposit d expected) = (.ok (.error e), w') ∧ Quiet w w') ∨
      ∃ deposits, w.deposits.update d expected = .ok deposits ∧
        w.perform (.updateDeposit d expected) = (.ok (.ok ()), { w with deposits }) := by
  simp only [perform, contestedUpdate]
  rcases guarded_cases w .depositsUpdate _ with h | ⟨_, h⟩
  · exact Or.inl h
  · rw [h]
    split
    · rename_i e c hf
      exact Or.inl ⟨e, _, rfl, quiet_script (race_of_updateFault hf)⟩
    · simp only [race, hrace, updateDeposit]
      cases hu : w.deposits.update d expected with
      | ok deposits => exact Or.inr ⟨deposits, rfl, rfl⟩
      | error e => exact Or.inl ⟨e, w, rfl, .refl w⟩

theorem updateDeposit_of_none {d : Deposit} {expected : Deposit.Status} {deposits : Store.Deposits}
    (hrace : w.script.race = none) (hf : w.script.fault? .depositsUpdate = none)
    (hu : w.script.updateFault? d.status = none) (h : w.deposits.update d expected = .ok deposits) :
    w.perform (.updateDeposit d expected) = (.ok (.ok ()), { w with deposits }) := by
  simp only [perform, contestedUpdate, guarded_of_none hf, hu, race, hrace, updateDeposit, h]

/-- The script has no fault for an update to a stage. -/
def Accepts (w : World) (status : Deposit.Status) : Prop :=
  w.script.fault? .depositsUpdate = none ∧ w.script.updateFault? status = none

instance (status : Deposit.Status) : Decidable (w.Accepts status) :=
  inferInstanceAs (Decidable (_ ∧ _))

theorem updateDeposit_of_fault {d : Deposit} (expected : Deposit.Status)
    (h : ¬ w.Accepts d.status) :
    ∃ e w', w.perform (.updateDeposit d expected) = (.ok (.error e), w') ∧ Quiet w w' := by
  simp only [perform, contestedUpdate, guarded]
  cases hf : w.script.fault? .depositsUpdate with
  | some f => exact ⟨f.1, _, rfl, quiet_script (race_of_fault hf)⟩
  | none =>
      cases hu : w.script.updateFault? d.status with
      | some f => exact ⟨f.1, _, rfl, quiet_script (race_of_updateFault hu)⟩
      | none => exact absurd ⟨hf, hu⟩ h

theorem applyUsage_of_none {user id : Uuid} {amount : Decimal}
    (h : w.script.fault? .usageApply = none) :
    w.perform (.applyUsage user id amount) =
      ((w.usages.apply user id amount (w.clock w.readings)).1,
        { w with readings := w.readings + 1,
                 usages := (w.usages.apply user id amount (w.clock w.readings)).2 }) := by
  simp only [perform, guarded_of_none h, changeUsage, readClock]

theorem applyUsage_cases (w : World) (user id : Uuid) (amount : Decimal) :
    (∃ e w', w.perform (.applyUsage user id amount) = (.ok (.error e), w') ∧ Quiet w w') ∨
      w.script.fault? .usageApply = none ∧ w.perform (.applyUsage user id amount) =
        ((w.usages.apply user id amount (w.clock w.readings)).1,
          { w with readings := w.readings + 1,
                   usages := (w.usages.apply user id amount (w.clock w.readings)).2 }) := by
  rcases guarded_cases w .usageApply (·.changeUsage fun s now => s.apply user id amount now) with
    h | ⟨hfault, _⟩
  · exact Or.inl h
  · exact Or.inr ⟨hfault, applyUsage_of_none hfault⟩

/-! ## The rail and the brokerage -/

theorem delayed_answer {ε : Type} (w : World) (call : OutboundCall) (r : Except ε α) :
    ∃ ms, (w.delayed call r).1 = .ok ⟨r, ms⟩ := by
  cases r <;> exact ⟨_, rfl⟩

theorem delayed_world {ε : Type} (w : World) (call : OutboundCall) (r : Except ε α) :
    ∃ c, (w.delayed call r).2 = { w with script := c } ∧ c.race = w.script.race := by
  cases r with
  | ok a =>
      exact ⟨_, rfl, race_delay w.script call⟩
  | error e => exact ⟨w.script, rfl, rfl⟩

theorem listTransfers_quiet (w : World) (limit offset : Nat) :
    Quiet w (w.perform (.listTransfers limit offset)).2 := by
  simp only [perform, listTransfers]
  obtain ⟨c, he, hc⟩ := delayed_world
    { w.send (.list limit offset) with rail := (w.rail.list limit offset).2 } .railList
    (w.rail.list limit offset).1
  rw [show (w.send (.list limit offset)).rail = w.rail from rfl, he]
  exact { Quiet.refl w with race := hc.trans }

theorem createTransfer_quiet (w : World) (o : Rail.Order) :
    Quiet w (w.perform (.createTransfer o)).2 := by
  simp only [perform, createTransfer, send, freshId]
  split
  all_goals
    obtain ⟨c, he, hc⟩ := delayed_world _ _ _
    rw [he]
  · exact { Quiet.refl w with race := hc.trans, drawn := Nat.le_succ _ }
  · exact { Quiet.refl w with race := hc.trans }
  · exact { Quiet.refl w with race := hc.trans }

/-- A funding fails, is answered with what its key has paid already, or moves money. -/
theorem fund_cases (s : Brokerage.Sandbox) (key account : String) (amount : Decimal)
    (fresh : Uuid) :
    (∃ e, (s.fund key account amount fresh).1 = .error e ∧
        (s.fund key account amount fresh).2.fundings = s.fundings ∧
        (s.fund key account amount fresh).2.byKey = s.byKey) ∨
      (∃ ref, s.byKey.get? key = some ref ∧
        (s.fund key account amount fresh).1 = .ok (ref, false) ∧
        (s.fund key account amount fresh).2.fundings = s.fundings ∧
        (s.fund key account amount fresh).2.byKey = s.byKey) ∨
      (s.byKey.get? key = none ∧
        (s.fund key account amount fresh).1 = .ok (Brokerage.Sandbox.referenceOf fresh, true) ∧
        (s.fund key account amount fresh).2.fundings =
          s.fundings ++ [⟨Brokerage.Sandbox.referenceOf fresh, account, amount⟩] ∧
        (s.fund key account amount fresh).2.byKey =
          s.byKey.insert key (Brokerage.Sandbox.referenceOf fresh)) := by
  simp only [Brokerage.Sandbox.fund]
  cases hf : s.failures with
  | cons e es => exact Or.inl ⟨e, rfl, rfl, rfl⟩
  | nil =>
      cases hk : s.byKey.get? key with
      | some ref => exact Or.inr (Or.inl ⟨ref, rfl, rfl, rfl, rfl⟩)
      | none =>
          by_cases ha : amount ≤ .zero
          · rw [if_pos ha]
            exact Or.inl ⟨_, rfl, rfl, rfl⟩
          · rw [if_neg ha]
            exact Or.inr (Or.inr ⟨rfl, rfl, rfl, rfl⟩)

theorem fundAccount_cases (w : World) (key account : String) (amount : Decimal) :
    (∃ r, (w.perform (.fundAccount key account amount)).1 = .ok r ∧
        Quiet w (w.perform (.fundAccount key account amount)).2 ∧
        ∀ ref, r.answer = .ok ref → w.brokerage.byKey.get? key = some ref) ∨
      (∃ ms, (w.perform (.fundAccount key account amount)).1 =
          .ok ⟨.ok (Brokerage.Sandbox.referenceOf (w.ids w.drawn)), ms⟩ ∧
        w.brokerage.byKey.get? key = none ∧
        Quiet w { (w.perform (.fundAccount key account amount)).2 with brokerage := w.brokerage } ∧
        (w.perform (.fundAccount key account amount)).2.drawn = w.drawn + 1 ∧
        (w.perform (.fundAccount key account amount)).2.brokerage.fundings =
          w.brokerage.fundings ++
            [⟨Brokerage.Sandbox.referenceOf (w.ids w.drawn), account, amount⟩] ∧
        (w.perform (.fundAccount key account amount)).2.brokerage.byKey =
          w.brokerage.byKey.insert key (Brokerage.Sandbox.referenceOf (w.ids w.drawn))) := by
  simp only [perform, fundAccount, send, freshId]
  rcases fund_cases w.brokerage key account amount (w.ids w.drawn) with
    ⟨e, h, ht, hk⟩ | ⟨ref, hf, h, ht, hk⟩ | ⟨hf, h, ht, hk⟩
  all_goals
    generalize hr : w.brokerage.fund key account amount (w.ids w.drawn) = out at h ht hk ⊢
    obtain ⟨r, brokerage⟩ := out
    subst h
    dsimp only at ht hk ⊢
  · obtain ⟨ms, hm⟩ := delayed_answer _ _ _
    obtain ⟨c, hw, hc⟩ := delayed_world _ _ _
    rw [hw]
    exact Or.inl ⟨_, hm, { Quiet.refl w with fundings := ht, byKey := hk, race := hc.trans }, by simp⟩
  · obtain ⟨ms, hm⟩ := delayed_answer _ _ _
    obtain ⟨c, hw, hc⟩ := delayed_world _ _ _
    rw [hw]
    refine Or.inl ⟨_, hm, { Quiet.refl w with fundings := ht, byKey := hk, race := hc.trans }, ?_⟩
    intro ref' href
    cases href
    exact hf
  · obtain ⟨ms, hm⟩ := delayed_answer _ _ _
    obtain ⟨c, hw, hc⟩ := delayed_world _ _ _
    rw [hw]
    refine Or.inr ⟨ms, hm, hf, ?_, rfl, ht, hk⟩
    exact { Quiet.refl w with race := hc.trans, drawn := Nat.le_succ _ }

/-! ## Requests that store nothing -/

/-- The requests that leave the books as they are. -/
def quiet : Request → Bool
  | .createDeposit _ | .updateDeposit _ _ => false
  | .incrementUsage _ _ _ | .applyUsage _ _ _ | .resetUsage _ => false
  | .fundAccount _ _ _ => false
  | _ => true

theorem perform_quiet {r : Request} (h : quiet r) (w : World) : Quiet w (w.perform r).2 := by
  cases r with
  | now => exact { Quiet.refl w with readings := Nat.le_succ _ }
  | freshId => exact { Quiet.refl w with drawn := Nat.le_succ _ }
  | depositById id => exact look_quiet w _ _
  | depositByTransfer t => exact look_quiet w _ _
  | depositsIn status => exact look_quiet w _ _
  | accountByRail a => exact look_quiet w _ _
  | accountById id => exact look_quiet w _ _
  | createTransfer o => exact createTransfer_quiet w o
  | listTransfers limit offset => exact listTransfers_quiet w limit offset
  | claim id =>
      simp only [perform]
      split
      · exact .refl w
      · exact { Quiet.refl w with }
  | userById _ | release _ | isAborted | isCancelled | pause _ => exact { Quiet.refl w with }
  | _ => cases h

end Causeway.World
