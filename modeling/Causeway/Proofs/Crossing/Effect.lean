import Causeway.Proofs.Crossing.System
import Causeway.Proofs.Store.Deposits
import Causeway.Proofs.Store.Usages
import Causeway.Proofs.World.Perform

/-!
# What a step does to the books

The rules of the crossing permit a writer to store only what an event makes of a deposit as it once
was, to count only what has been funded, and to pay in only what has come over the rail. A permitted
request has one of five effects (`perform_effect`), and whatever is true of all runs is proved by
going through them.
-/

namespace Causeway.World

open Deposit (Event)

variable {w w' w'' : World} {d : Deposit}

/-- The deposits are sound, and nobody but the operations writes them. -/
structure Sound (w : World) : Prop where
  deposits : w.deposits.Sound
  race : w.script.race = none

/-- Deposits are led on, and what has been noted elsewhere stays. -/
structure Later (w w' : World) : Prop where
  deposits : ∀ ⦃id d⦄, w.deposits.get? id = some d →
    ∃ d', w'.deposits.get? id = some d' ∧ d.Leads d'
  accounts : ∀ ⦃id a⦄, w.accounts.get? id = some a → w'.accounts.get? id = some a
  byKey : ∀ ⦃key ref⦄, w.brokerage.byKey.get? key = some ref →
    w'.brokerage.byKey.get? key = some ref
  applied : ∀ ⦃id⦄, id ∈ w.usages.applied → id ∈ w'.usages.applied

theorem Later.refl (w : World) : Later w w :=
  ⟨fun _ d h => ⟨d, h, .refl⟩, fun _ _ h => h, fun _ _ h => h, fun _ h => h⟩

theorem Later.trans (h : Later w w') (h' : Later w' w'') : Later w w'' where
  deposits id d hd := by
    obtain ⟨d', hd', hl⟩ := h.deposits hd
    obtain ⟨d'', hd'', hl'⟩ := h'.deposits hd'
    exact ⟨d'', hd'', hl.trans hl'⟩
  accounts _ _ ha := h'.accounts (h.accounts ha)
  byKey _ _ hk := h'.byKey (h.byKey hk)
  applied _ hm := h'.applied (h.applied hm)

/-! ## Copies -/

/-- The copy is the stored deposit as it is now or was before. -/
def Recalls (w : World) (d : Deposit) : Prop :=
  ∃ cur, w.deposits.get? d.id = some cur ∧ d.Leads cur

theorem Recalls.later (h : w.Recalls d) (hw : Later w w') : w'.Recalls d := by
  obtain ⟨cur, hcur, hl⟩ := h
  obtain ⟨cur', hcur', hl'⟩ := hw.deposits hcur
  exact ⟨cur', hcur', hl.trans hl'⟩

theorem Sound.recalls (hs : w.Sound) {id : Uuid} (h : w.deposits.get? id = some d) :
    w.Recalls d := by
  obtain rfl := hs.deposits.id_eq h
  exact ⟨d, h, .refl⟩

/-- What an event reports has happened. -/
def Backs (w : World) (d : Deposit) : Event → Prop
  | .railInitiated _ => True
  | .railCompleted _ => True
  | .brokerFunded ref => w.brokerage.byKey.get? d.id.toText = some ref
  | .failed _ => d.status ≠ .railCompleted
  | .usageRecorded => d.id ∈ w.usages.applied

/-! ## Permitted requests -/

def Permits (w : World) : Request → Prop
  | .createDeposit d => ∃ id user account reference amount currency now,
      d = .start id user account reference amount currency now
  | .updateDeposit d expected => ∃ d₀ e now,
      w.Recalls d₀ ∧ d₀.status = expected ∧ d₀.apply e now = .ok d ∧ w.Backs d₀ e
  | .applyUsage user id amount => ∃ d : Deposit,
      w.Recalls d ∧ d.status = .brokerFunded ∧ user = d.user ∧ id = d.id ∧ amount = d.amount.value
  | .fundAccount key account amount => ∃ (d : Deposit) (a : VirtualAccount),
      w.Recalls d ∧ d.status = .railCompleted ∧ w.accounts.get? d.account = some a ∧
        key = d.id.toText ∧ account = a.brokerageAccount ∧ amount = d.settledAmount
  | .incrementUsage _ _ _ => False
  | .resetUsage _ => False
  | _ => True

/-! ## Effects -/

/-- What a step can do to the books. -/
inductive Effect (w : World) : World → Prop where
  | quiet {w' : World} (h : Quiet w w') : Effect w w'
  | created {id user account : Uuid} {reference : String} {amount : Amount} {currency : String}
      {now : Instant} {deposits : Store.Deposits}
      (h : w.deposits.create (.start id user account reference amount currency now) = .ok deposits) :
      Effect w { w with deposits }
  | moved {cur d : Deposit} {e : Event} {now : Instant} {deposits : Store.Deposits}
      (hcur : w.deposits.get? cur.id = some cur) (ha : cur.apply e now = .ok d)
      (hb : w.Backs cur e) (hu : w.deposits.update d cur.status = .ok deposits) :
      Effect w { w with deposits }
  | counted {d : Deposit} (hd : w.deposits.get? d.id = some d) (hf : d.status = .brokerFunded) :
      Effect w
        { w with
          readings := w.readings + 1
          usages := (w.usages.apply d.user d.id d.amount.value (w.clock w.readings)).2 }
  | paid {w' : World} {d : Deposit} {a : VirtualAccount} (hd : w.deposits.get? d.id = some d)
      (hset : d.Settled) (ha : w.accounts.get? d.account = some a)
      (hkey : w.brokerage.byKey.get? d.id.toText = none)
      (hq : Quiet w { w' with brokerage := w.brokerage }) (hdrawn : w'.drawn = w.drawn + 1)
      (hfund : w'.brokerage.fundings = w.brokerage.fundings ++
        [⟨Brokerage.Sandbox.referenceOf (w.ids w.drawn), a.brokerageAccount, d.settledAmount⟩])
      (hby : w'.brokerage.byKey = w.brokerage.byKey.insert d.id.toText
        (Brokerage.Sandbox.referenceOf (w.ids w.drawn))) : Effect w w'

theorem updateDeposit_effect (hs : w.Sound) {d₀ : Deposit} {e : Event} {now : Instant}
    (hd₀ : w.Recalls d₀) (ha : d₀.apply e now = .ok d) (hb : w.Backs d₀ e) :
    Effect w (w.perform (.updateDeposit d d₀.status)).2 := by
  obtain ⟨cur, hcur, hl⟩ := hd₀
  rcases updateDeposit_cases hs.race d d₀.status with ⟨_, _, he, hq⟩ | ⟨deposits, hu, he⟩
  · rw [he]; exact .quiet hq
  · rw [he]
    have hf : d₀.status = .railCompleted → ∀ reason, e ≠ .failed reason := by
      rintro hst reason rfl
      exact hb hst
    -- The update went through, so the stored deposit is at the stage of the copy.
    obtain ⟨hcur', hca, _⟩ := Store.Deposits.update_moves hs.deposits hcur hl ha hf hu
    obtain ⟨_, hc, hst, _⟩ := Store.Deposits.update_eq_ok hu
    rw [hcur'] at hc
    cases hc
    have hid := hl.id_eq
    refine .moved (by rw [hid]; exact hcur) hca ?_ (by rw [hst]; exact hu)
    cases e with
    | railInitiated t => trivial
    | railCompleted amount => trivial
    | brokerFunded ref => simpa only [Backs, hid] using hb
    | failed reason => simpa only [Backs, hst] using hb
    | usageRecorded => simpa only [Backs, hid] using hb

theorem applyUsage_effect (w : World) (hd : w.Recalls d) (hf : d.status = .brokerFunded) :
    Effect w (w.perform (.applyUsage d.user d.id d.amount.value)).2 := by
  obtain ⟨cur, hcur, hl⟩ := hd
  rcases applyUsage_cases w d.user d.id d.amount.value with ⟨_, _, he, hq⟩ | ⟨_, he⟩
  · rw [he]; exact .quiet hq
  · rw [he, ← hl.id_eq, ← hl.user_eq, ← hl.amount_eq]
    exact .counted (by rw [hl.id_eq]; exact hcur) (hl.status_funded hf)

theorem fundAccount_effect (w : World) {a : VirtualAccount} (hd : w.Recalls d)
    (hst : d.status = .railCompleted) (ha : w.accounts.get? d.account = some a) :
    Effect w (w.perform (.fundAccount d.id.toText a.brokerageAccount d.settledAmount)).2 := by
  obtain ⟨cur, hcur, hl⟩ := hd
  obtain ⟨hset, hamount⟩ := hl.settled (Or.inl hst)
  rcases fundAccount_cases w d.id.toText a.brokerageAccount d.settledAmount with
    ⟨_, _, hq, _⟩ | ⟨_, _, hkey, hq, hdrawn, hfund, hby⟩
  · exact .quiet hq
  · have hid := hl.id_eq
    refine .paid (by rw [hid]; exact hcur) hset (by rw [hl.account_eq]; exact ha)
      (by rw [hid]; exact hkey) hq hdrawn ?_ ?_
    · rw [hamount]; exact hfund
    · rw [hid]; exact hby

theorem perform_effect (hs : w.Sound) {r : Request} (h : w.Permits r) :
    Effect w (w.perform r).2 := by
  cases r with
  | createDeposit d =>
      obtain ⟨_, _, _, _, _, _, _, rfl⟩ := h
      rcases createDeposit_cases w _ with ⟨_, _, he, hq⟩ | ⟨_, hc, he⟩
      · rw [he]; exact .quiet hq
      · rw [he]; exact .created hc
  | updateDeposit d expected =>
      obtain ⟨d₀, e, now, hd₀, rfl, ha, hb⟩ := h
      exact updateDeposit_effect hs hd₀ ha hb
  | applyUsage user id amount =>
      obtain ⟨d, hd, hf, rfl, rfl, rfl⟩ := h
      exact applyUsage_effect w hd hf
  | fundAccount key account amount =>
      obtain ⟨d, a, hd, hst, ha, rfl, rfl, rfl⟩ := h
      exact fundAccount_effect w hd hst ha
  | incrementUsage user flow amount => exact h.elim
  | resetUsage user => exact h.elim
  | _ => exact .quiet (perform_quiet rfl w)

/-! ## What every effect leaves -/

theorem Effect.deposits (h : Effect w w') (hs : w.Sound) :
    w'.Sound ∧ w.deposits.Advances w'.deposits := by
  cases h with
  | quiet hq =>
      rw [hq.deposits]
      exact ⟨⟨by rw [hq.deposits]; exact hs.deposits, hq.race hs.race⟩, .refl _⟩
  | created hc =>
      have := Store.Deposits.create_sound hs.deposits (Deposit.coherent_start ..) rfl hc
      exact ⟨⟨this.1, hs.race⟩, this.2⟩
  | @moved cur d e _ _ hcur ha hb hu =>
      have hf : cur.status = .railCompleted → ∀ reason, e ≠ .failed reason := by
        rintro hst reason rfl
        exact hb hst
      obtain ⟨_, _, _, hs', ha'⟩ := Store.Deposits.update_moves hs.deposits hcur .refl ha hf hu
      exact ⟨⟨hs', hs.race⟩, ha'⟩
  | counted hd hf => exact ⟨⟨hs.deposits, hs.race⟩, .refl _⟩
  | paid hd hset ha hkey hq hdrawn hfund hby =>
      have hdep := hq.deposits
      rw [show _ = _ from hdep]
      exact ⟨⟨by rw [show _ = _ from hdep]; exact hs.deposits, hq.race hs.race⟩, .refl _⟩

theorem Effect.sound (h : Effect w w') (hs : w.Sound) : w'.Sound := (h.deposits hs).1

theorem Effect.later (h : Effect w w') (hs : w.Sound) : Later w w' := by
  have hadv : ∀ ⦃id d⦄, w.deposits.get? id = some d →
      ∃ d', w'.deposits.get? id = some d' ∧ d.Leads d' := by
    intro id d hd
    obtain ⟨d', hd', rfl | hm⟩ := (h.deposits hs).2 hd
    · exact ⟨_, hd', .refl⟩
    · exact ⟨d', hd', .single hm⟩
  cases h with
  | quiet hq =>
      refine ⟨hadv, hq.accounts, ?_, ?_⟩
      · rw [hq.byKey]; exact fun _ _ hk => hk
      · rw [hq.usages]; exact fun _ hm => hm
  | created hc => exact { Later.refl w with deposits := hadv }
  | moved hcur ha hb hu => exact { Later.refl w with deposits := hadv }
  | counted hd hf =>
      exact { Later.refl w with applied := fun _ hm => Store.Usages.mem_applied_apply hm }
  | paid hd hset ha hkey hq hdrawn hfund hby =>
      refine ⟨hadv, hq.accounts, ?_, ?_⟩
      · intro key ref hk
        rw [hby, Table.get?_insert_of_ne]
        · exact hk
        · rintro rfl
          rw [hkey] at hk; cases hk
      · rw [show _ = _ from hq.usages]; exact fun _ hm => hm

theorem Effect.ids (h : Effect w w') : w'.ids = w.ids ∧ w.drawn ≤ w'.drawn := by
  cases h with
  | quiet hq => exact ⟨hq.ids, hq.drawn⟩
  | created hc => exact ⟨rfl, Nat.le_refl _⟩
  | moved hcur ha hb hu => exact ⟨rfl, Nat.le_refl _⟩
  | counted hd hf => exact ⟨rfl, Nat.le_refl _⟩
  | paid hd hset ha hkey hq hdrawn hfund hby => exact ⟨hq.ids, hq.drawn⟩

theorem Effect.clock (h : Effect w w') : w'.clock = w.clock ∧ w.readings ≤ w'.readings := by
  cases h with
  | quiet hq => exact ⟨hq.clock, hq.readings⟩
  | created hc => exact ⟨rfl, Nat.le_refl _⟩
  | moved hcur ha hb hu => exact ⟨rfl, Nat.le_refl _⟩
  | counted hd hf => exact ⟨rfl, Nat.le_succ _⟩
  | paid hd hset ha hkey hq hdrawn hfund hby => exact ⟨hq.clock, hq.readings⟩

end Causeway.World

namespace Causeway.Crossing

open World (Quiet Effect)

def rules : Rules where
  assumes w _ := w.Sound
  rely := World.Later
  permits := World.Permits
  refl := World.Later.refl
  trans := World.Later.trans

theorem rules_shared : rules.Shared := fun _ _ hs hp => (World.perform_effect hs hp).later hs

variable {s : Settings} {σ σ' : System} {w w' : World}

theorem Disturbance.quiet (h : Disturbance w w') : Quiet w w' := by
  cases h with
  | script c hc => exact { Quiet.refl w with race := fun _ => hc }
  | complete transfer =>
      unfold World.completeTransfer
      split <;> exact { Quiet.refl w with }
  | setState transfer state =>
      unfold World.setTransferState
      split <;> exact { Quiet.refl w with }
  | addAccount a hnew =>
      refine { Quiet.refl w with accounts := fun id b hb => ?_ }
      rw [World.addAccount, Table.get?_insert_of_ne]
      · exact hb
      · rintro rfl
        rw [hnew] at hb; cases hb
  | _ => exact { Quiet.refl w with }

theorem Disturbance.outbound (h : Disturbance w w') : w'.outbound = w.outbound := by
  cases h with
  | complete transfer =>
      unfold World.completeTransfer
      split <;> rfl
  | setState transfer state =>
      unfold World.setTransferState
      split <;> rfl
  | _ => rfl

theorem Step.effect (h : Step s σ σ') (hs : σ.world.Sound) (ho : σ.Obeys rules) :
    Effect σ.world σ'.world := by
  cases h with
  | start op => exact .quiet (.refl _)
  | turn hr => exact World.perform_effect hs (ho.permits hr hs)
  | disturb hd => exact .quiet hd.quiet

end Causeway.Crossing
