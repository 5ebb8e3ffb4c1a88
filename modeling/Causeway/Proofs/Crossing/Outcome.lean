import Causeway.Proofs.Crossing.Claims
import Causeway.Proofs.Crossing.Onward
import Causeway.Proofs.World.Calm
import Causeway.Proofs.World.Spared

/-!
# What an operation by itself makes of a deposit

The stores, the rail and the brokerage may fail at any call, and an abort may come at any time. But
while no other operation is in progress, an operation changes one deposit at most (`Moved`), and its
answer tells how far that has come: it fails before it writes, or has written what its failure says.
-/

namespace Causeway

open Deposit (Event Status)

namespace World

variable {w w' w'' : World} {d d' d'' : Deposit} {expected : Status}

/-! ## What is left as it was -/

/-- The deposits, the usage and the claims are as they were. -/
structure Unwritten (w w' : World) : Prop where
  deposits : w'.deposits = w.deposits
  usages : w'.usages = w.usages
  claims : w'.claims = w.claims

theorem Unwritten.refl (w : World) : Unwritten w w := ⟨rfl, rfl, rfl⟩

theorem Unwritten.trans (h : Unwritten w w') (h' : Unwritten w' w'') : Unwritten w w'' where
  deposits := h'.deposits.trans h.deposits
  usages := h'.usages.trans h.usages
  claims := h'.claims.trans h.claims

/-- So are the fundings. -/
structure Intact (w w' : World) : Prop extends Unwritten w w' where
  fundings : w'.brokerage.fundings = w.brokerage.fundings

theorem Intact.refl (w : World) : Intact w w := ⟨.refl w, rfl⟩

theorem Intact.trans (h : Intact w w') (h' : Intact w' w'') : Intact w w'' :=
  ⟨h.toUnwritten.trans h'.toUnwritten, h'.fundings.trans h.fundings⟩

theorem Unmoved.intact (h : Unmoved w w') : Intact w w' :=
  ⟨⟨h.deposits, h.usages, h.claims⟩, h.fundings⟩

/-- The requests that write to no store and claim nothing. -/
def Outside : Request → Prop
  | .createDeposit _ | .updateDeposit _ _ => False
  | .incrementUsage _ _ _ | .applyUsage _ _ _ | .resetUsage _ => False
  | .claim _ | .release _ => False
  | _ => True

theorem perform_outside {r : Request} (h : Outside r) (w : World) :
    Unwritten w (w.perform r).2 := by
  refine ⟨?_, ?_, ?_⟩
  · refine w.perform_deposits ?_ ?_ <;> rintro _ <;> intros <;> rintro rfl <;> exact h
  · by_cases hq : quiet r
    · exact (perform_quiet hq w).usages
    · cases r with
      | fundAccount key account amount =>
          exact w.fundAccount_eq (f := (·.usages)) (fun _ _ _ _ _ => rfl) key account amount
      | createDeposit _ | updateDeposit _ _ | incrementUsage _ _ _ | applyUsage _ _ _
      | resetUsage _ => exact h.elim
      | _ => exact absurd rfl hq
  · refine w.perform_claims ?_ ?_ <;> rintro _ rfl <;> exact h

/-! ## One deposit has changed -/

/-- The deposit `d` has become `d'`. No other has changed, and no claim. -/
structure Moved (d d' : Deposit) (w w' : World) : Prop where
  before : w.deposits.get? d.id = some d
  after : w'.deposits.get? d.id = some d'
  leads : d.Leads d'
  others : SameBut d.id w w'
  claims : w'.claims = w.claims

theorem Unwritten.moved (h : Unwritten w w') (hd : w.deposits.get? d.id = some d) :
    Moved d d w w' :=
  ⟨hd, by rw [h.deposits]; exact hd, .refl, fun _ _ => by rw [h.deposits], h.claims⟩

theorem Moved.trans (h : Moved d d' w w') (h' : Moved d' d'' w' w'') : Moved d d'' w w'' where
  before := h.before
  after := by rw [← h.leads.id_eq]; exact h'.after
  leads := h.leads.trans h'.leads
  others id hne := (h'.others id (by rw [h.leads.id_eq]; exact hne)).trans (h.others id hne)
  claims := h'.claims.trans h.claims

theorem Moved.stored (h : Moved d d' w w') : w'.deposits.get? d'.id = some d' := by
  rw [h.leads.id_eq]
  exact h.after

theorem Unwritten.before_moved (h : Unwritten w w') (hm : Moved d d' w' w'') :
    Moved d d' w w'' :=
  (h.moved (by rw [← h.deposits]; exact hm.before)).trans hm

theorem moved_of_update {e : Event} {now : Instant} {deposits : Store.Deposits}
    (hd : w.deposits.get? d.id = some d) (ha : d.Allows e)
    (hf : d.status = .railCompleted → ∀ reason, e ≠ .failed reason)
    (hu : w.deposits.update (d.after e now) expected = .ok deposits) :
    Moved d (d.after e now) w { w with deposits } := by
  have hmoves : d.Moves (d.after e now) :=
    ⟨e, now, Deposit.apply_eq_ok_iff.mpr ⟨ha, rfl⟩, hf⟩
  have hid : (d.after e now).id = d.id := congrArg Deposit.Origin.id hmoves.origin
  refine ⟨hd, ?_, .single hmoves, fun id hne => ?_, rfl⟩
  · rw [← hid]
    exact Store.Deposits.get?_update_self hu
  · refine (Store.Deposits.get?_update hu).trans (if_neg ?_)
    rw [hid]
    exact hne.symm

end World

namespace Crossing

open World (Unwritten Intact Moved Outside Unmoved SameBut)

variable {s : Settings} {w w' w'' : World} {d d' : Deposit} {e : Event} {expected : Status}
  {ε α : Type}

/-- No other operation is in progress: between two requests nobody writes, claims or pays in. -/
def lone : Rules where
  assumes w _ := w.Sound
  rely := Intact
  permits _ _ := True
  refl := .refl
  trans h h' := h.trans h'

/-! ## Requests that write nothing -/

/-- What no request of an action touches is as it was, whether the action fails or not. -/
theorem yields_of_only {P : Request → Prop} {J : World → Prop} (hstable : lone.Stable J)
    (hJ : ∀ w r, P r → J w → J (w.perform r).2) {t : ExceptT ε Program α} (ht : t.run.Only P)
    (hw : J w) : lone.Yields t (fun _ => J) (fun _ => J) w := by
  have hspares : ∀ r, P r → lone.Spares J r := fun r hr w w' hw hrely _ =>
    ⟨trivial, hJ w' r hr (hstable hrely hw)⟩
  refine Rules.Keeps.mono (Rules.Keeps.spared hspares ht hw) fun r w hw => ?_
  cases r <;> exact hw

theorem yields_unwritten {t : ExceptT ε Program α} (ht : t.run.Only Outside) :
    lone.Yields t (fun _ => Unwritten w) (fun _ => Unwritten w) w :=
  yields_of_only (fun _ _ hw h => h.trans hw.toUnwritten)
    (fun w _ hr h => h.trans (World.perform_outside hr w)) ht (.refl w)

theorem yields_intact {t : ExceptT ε Program α} (ht : t.run.Only World.Looks) :
    lone.Yields t (fun _ => Intact w) (fun _ => Intact w) w :=
  yields_of_only (fun _ _ hw h => h.trans hw)
    (fun w _ hr h => h.trans (World.perform_looks hr w).intact) ht (.refl w)

/-! ## Changes -/

theorem mark_lone (d : Deposit) (e : Event) (w : World) :
    lone.Yields (mark d e) (fun d' w' => d.Allows e ∧ (∃ now, d' = d.after e now) ∧ Intact w w')
      (fun _ => Intact w) w := by
  refine Rules.Yields.bind (Rules.Yields.lift (Rules.Keeps.request fun w' hw _ =>
    ⟨trivial, fun now _ => ?_⟩))
  have hintact : Intact w { w' with readings := w'.readings + 1 } :=
    hw.trans ⟨⟨rfl, rfl, rfl⟩, rfl⟩
  refine Rules.Yields.ofExcept ?_
  cases ha : d.apply e now with
  | ok d' =>
      obtain ⟨hallows, hd'⟩ := Deposit.apply_eq_ok_iff.mp ha
      exact ⟨hallows, ⟨now, hd'⟩, hintact⟩
  | error e => exact hintact

/-- The change has been stored. -/
def Wrote (w : World) (d : Deposit) (expected : Status) (w' : World) : Prop :=
  ∃ w₀ deposits, Intact w w₀ ∧ w₀.deposits.update d expected = .ok deposits ∧
    w' = { w₀ with deposits }

theorem Wrote.moved {now : Instant} (h : Wrote w' (d.after e now) expected w'')
    (hw : Unwritten w w') (hd : w.deposits.get? d.id = some d) (ha : d.Allows e)
    (hf : d.status = .railCompleted → ∀ reason, e ≠ .failed reason) :
    Moved d (d.after e now) w w'' := by
  obtain ⟨w₀, deposits, h₀, hu, rfl⟩ := h
  have hmoved := (hw.trans h₀.toUnwritten).moved hd
  exact hmoved.trans (World.moved_of_update hmoved.after ha hf hu)

theorem update_lone (d : Deposit) (expected : Status) (w : World) :
    lone.Yields (update d expected) (fun _ => Wrote w d expected) (fun _ => Intact w) w := by
  refine Rules.Yields.ask (Rules.Keeps.request fun w' hw hs => ⟨trivial, fun a ha => ?_⟩)
  have hclaims := w'.perform_claims (r := .updateDeposit d expected) (by simp) (by simp)
  rcases World.updateDeposit_cases hs.race d expected with ⟨e, w'', he, hq⟩ | ⟨deposits, hu, he⟩
  · rw [he] at ha hclaims ⊢
    cases ha
    exact hw.trans ⟨⟨hq.deposits, hq.usages, hclaims⟩, hq.fundings⟩
  · rw [he] at ha ⊢
    cases ha
    exact ⟨w', deposits, hw, hu, rfl⟩

/-- The change is stored, or the world is as it was. -/
theorem persist_lone (d : Deposit) (expected : Status) (w : World) :
    lone.Yields (persist d expected)
      (fun b w' => b = true ∧ Wrote w d expected w' ∨ b = false ∧ Intact w w')
      (fun _ => Intact w) w := by
  refine Rules.Yields.bind (Rules.Yields.result (Rules.Yields.mono (update_lone d expected w)
    (fun _ w' h => .inl ⟨rfl, h⟩) fun e w' h => ?_))
  cases e with
  | stale _ => exact .inr ⟨rfl, h⟩
  | _ => exact h

/-- What an event makes of a stored deposit is stored, or nothing has been written. -/
theorem advance_lone {w₀ : World} {f : Deposit → Action α} {Q : α → World → Prop}
    {E : Failure → World → Prop} (hw : Unwritten w₀ w) (hd : w₀.deposits.get? d.id = some d)
    (he : ∀ reason, e ≠ .failed reason) (hE : ∀ e w', Unwritten w₀ w' → E e w')
    (hf : ∀ now w', Moved d (d.after e now) w₀ w' → lone.Yields (f (d.after e now)) Q E w') :
    lone.Yields (mark d e >>= fun d' => update d' expected >>= fun _ => f d') Q E w := by
  refine Rules.Yields.bind (Rules.Yields.mono (mark_lone d e w) ?_ fun _ _ h =>
    hE _ _ (hw.trans h.toUnwritten))
  rintro _ w₁ ⟨ha, ⟨now, rfl⟩, h₁⟩
  replace h₁ := hw.trans h₁.toUnwritten
  exact Rules.Yields.bind (Rules.Yields.mono (update_lone _ expected w₁)
    (fun _ w₂ h₂ => hf now w₂ (h₂.moved h₁ hd ha fun _ => he))
    fun _ _ h => hE _ _ (h₁.trans h.toUnwritten))

/-! ## Into the brokerage -/

theorem applyUsage_lone (user id : Uuid) (amount : Decimal) (w : World) :
    lone.Yields (Action.ask (Program.request (.applyUsage user id amount)))
      (fun _ w' => w'.deposits = w.deposits ∧ w'.claims = w.claims)
      (fun _ w' => w'.deposits = w.deposits ∧ w'.claims = w.claims) w := by
  refine Rules.Yields.ask (Rules.Keeps.request fun w' hw _ => ⟨trivial, fun a _ => ?_⟩)
  have hdeposits := w'.perform_deposits (r := .applyUsage user id amount) (by simp) (by simp)
  have hclaims := w'.perform_claims (r := .applyUsage user id amount) (by simp) (by simp)
  cases a <;> exact ⟨hdeposits.trans hw.deposits, hclaims.trans hw.claims⟩

/-- Counting a deposit leaves it where it stands. -/
theorem recordUsage_lone (hd : w.deposits.get? d.id = some d) :
    lone.Yields (recordUsage d)
      (fun d' w' => Moved d d' w w' ∧ d'.standing = d.standing) (fun _ => Moved d d w) w := by
  have hcounted : ∀ {w'}, w'.deposits = w.deposits ∧ w'.claims = w.claims → Moved d d w w' :=
    fun h => ⟨hd, by rw [h.1]; exact hd, .refl, fun _ _ => by rw [h.1], h.2⟩
  refine Rules.Yields.bind (Rules.Yields.mono (applyUsage_lone d.user d.id d.amount.value w) ?_
    fun _ _ => hcounted)
  intro _ w₁ h₁
  replace h₁ := hcounted h₁
  refine advance_lone (.refl w₁) h₁.after (fun _ => nofun)
    (fun _ _ h => h₁.trans (h.moved h₁.after)) fun now w₂ hmoved => ?_
  exact Rules.Yields.pure ⟨h₁.trans hmoved, rfl⟩

theorem only_payIn_outside (s : Settings) (key account : String) (amount : Decimal) :
    (Action.retrying (policy s) (payIn key account amount)).run.Only Outside :=
  (only_payIn (fun _ _ _ => trivial) (fun _ => trivial) _ _ _).retrying trivial (fun _ => trivial) _

/-- Who has claimed a deposit funds it, or leaves deposits and usage as they were. -/
theorem fundClaimed_lone (s : Settings) (id : Uuid) (w : World) :
    lone.Yields (fundClaimed s id)
      (fun d' w' => ∃ d, d.id = id ∧ d.status = .railCompleted ∧ Moved d d' w w' ∧
        d'.status = .brokerFunded ∧ d'.transfer = d.transfer)
      (fun _ => Unwritten w) w := by
  refine Rules.Yields.bind (Rules.Yields.ask (Rules.Keeps.request fun w' hw hs =>
    ⟨trivial, fun a ha => ?_⟩))
  have hlooked := hw.trans (World.perform_looks (r := .depositById id) trivial w').intact
  replace hlooked := hlooked.toUnwritten
  cases a with
  | error e => exact hlooked
  | ok found =>
      obtain ⟨rfl, -⟩ := World.look_ok ha
      generalize (w'.perform (.depositById id)).2 = w₀ at hlooked
      rw [hw.deposits]
      refine Rules.Yields.bind (Rules.Yields.orNotFound (fun d hd => ?_) fun _ => hlooked)
      obtain rfl : d.id = id := hs.deposits.id_eq (by rw [hw.deposits]; exact hd)
      dsimp only
      by_cases hst : d.status = .railCompleted
      · rw [if_neg (by simp [hst])]
        refine Rules.Yields.bind (Rules.Yields.mono
          (yields_unwritten (.request trivial)) ?_ fun _ _ h => hlooked.trans h)
        intro found w₁ h₁
        replace h₁ := hlooked.trans h₁
        refine Rules.Yields.bind (Rules.Yields.orNotFound (fun account _ => ?_) fun _ => h₁)
        refine Rules.Yields.bind (Rules.Yields.mono (yields_unwritten (only_payIn_outside s _ _ _))
          ?_ fun _ _ h => h₁.trans h)
        intro ref w₂ h₂
        -- Once this is stored the deposit is funded, whatever becomes of its count.
        refine advance_lone (h₁.trans h₂) hd (fun _ => nofun) (fun _ _ h => h)
          fun now w₃ hmoved => ?_
        refine Rules.Yields.bind (Rules.Yields.result (Rules.Yields.mono
          (recordUsage_lone hmoved.stored) ?_ fun _ _ h => ?_))
        · rintro d' w₄ ⟨h₄, hstanding⟩
          exact Rules.Yields.pure ⟨d, rfl, hst, hmoved.trans h₄,
            Deposit.status_of_standing hstanding, congrArg Deposit.Standing.transfer hstanding⟩
        · exact Rules.Yields.pure ⟨d, rfl, hst, hmoved.trans h, rfl, rfl⟩
      · rw [if_pos hst]
        exact hlooked

/-- A funding that succeeds has funded the stored deposit, and one that fails leaves deposits and
usage as they were. Either gives its claim back. -/
theorem fund_lone (s : Settings) (d : Deposit) (w : World) :
    lone.Yields (fund s d)
      (fun d' w' => ∃ cur, cur.id = d.id ∧ cur.status = .railCompleted ∧ Moved cur d' w w' ∧
        d'.status = .brokerFunded ∧ d'.transfer = cur.transfer)
      (fun _ => Unwritten w) w := by
  unfold fund
  dsimp only
  by_cases hst : d.status = .railCompleted
  · rw [if_neg (by simp [hst])]
    refine Rules.Yields.bind (Rules.Yields.lift (Rules.Keeps.request fun w' hw _ =>
      ⟨trivial, fun claimed hclaimed => ?_⟩))
    simp only [World.perform, hw.claims] at hclaimed ⊢
    by_cases hmem : d.id ∈ w.claims
    · rw [if_pos hmem] at hclaimed ⊢
      cases hclaimed
      exact Rules.Yields.throw hw.toUnwritten
    · rw [if_neg hmem] at hclaimed ⊢
      cases hclaimed
      have hclaim : Unwritten w { w' with claims := w.claims } := ⟨hw.deposits, hw.usages, rfl⟩
      -- The claim is the first of the list still when it is released.
      have hrelease : ∀ {w₁ w₂ : World}, w₁.claims = d.id :: w.claims → Intact w₁ w₂ →
          (w₂.perform (.release d.id)).2 = { w₂ with claims := w.claims } := fun h hw => by
        simp only [World.perform, hw.claims, h, List.erase_cons_head]
      refine Rules.Yields.bind (Rules.Yields.result (Rules.Yields.mono
        (fundClaimed_lone s d.id _) ?_ fun e w₁ h => ?_))
      · rintro d' w₁ ⟨cur, hid, hcur, hmoved, hfunded, htransfer⟩
        refine Rules.Yields.bind (Rules.Yields.lift (Rules.Keeps.request fun w₂ hw₂ _ =>
          ⟨trivial, fun _ _ => Rules.Yields.ofExcept ?_⟩))
        rw [hrelease hmoved.claims hw₂]
        refine ⟨cur, hid, hcur, hclaim.before_moved ⟨hmoved.before, ?_, hmoved.leads, ?_, rfl⟩,
          hfunded, htransfer⟩
        · rw [hw₂.deposits]; exact hmoved.after
        · intro id hne
          rw [hw₂.deposits]; exact hmoved.others id hne
      · refine Rules.Yields.bind (Rules.Yields.lift (Rules.Keeps.request fun w₂ hw₂ _ =>
          ⟨trivial, fun _ _ => Rules.Yields.ofExcept ?_⟩))
        rw [hrelease h.claims hw₂]
        exact ⟨hw₂.deposits.trans (h.deposits.trans hw.deposits),
          hw₂.usages.trans (h.usages.trans hw.usages), rfl⟩
  · rw [if_pos hst]
    exact Rules.Yields.throw (.refl w)

/-! ## News from the rail -/

/-- What a callback has done, as its outcome says. -/
def Acted (transfer : String) (w : World) : CallbackOutcome → World → Prop
  | .advanced _ target => fun w' => ∃ d d', w.deposits.getByTransfer? transfer = some d ∧
      d.status = .railInitiated ∧ Moved d d' w w' ∧ d'.status = target ∧ d'.transfer = d.transfer
  | _ => Unwritten w

theorem currentOutcome_lone (id : Uuid) (w : World) :
    lone.Yields (currentOutcome id) (fun out w' => Intact w w' ∧ ∃ status, out = .unchanged status)
      (fun _ => Intact w) w := by
  refine Rules.Yields.bind (Rules.Yields.mono (yields_intact (.request trivial)) ?_ fun _ _ h => h)
  intro found w' h
  exact Rules.Yields.bind (Rules.Yields.orNotFound
    (fun d _ => Rules.Yields.pure ⟨h, d.status, rfl⟩) fun _ => h)

/-- News is stored before anything else is done about it. If it cannot be, nothing has changed. -/
theorem tell_lone {w₀ : World} {transfer : String} {f : Deposit → Action CallbackOutcome}
    (hw : Intact w₀ w) (hd : w₀.deposits.get? d.id = some d) (hst : d.status = .railInitiated)
    (hf : ∀ now w', Moved d (d.after e now) w₀ w' →
      lone.Yields (f (d.after e now)) (Acted transfer w₀) (fun _ => Intact w₀) w') :
    lone.Yields (do
        let d' ← mark d e
        if !(← persist d' d.status) then return ← currentOutcome d.id
        f d')
      (Acted transfer w₀) (fun _ => Intact w₀) w := by
  refine Rules.Yields.bind (Rules.Yields.mono (mark_lone d e w) ?_ fun _ _ h => hw.trans h)
  rintro _ w₁ ⟨ha, ⟨now, rfl⟩, h₁⟩
  replace h₁ := hw.trans h₁
  refine Rules.Yields.bind (Rules.Yields.mono (persist_lone _ _ w₁) ?_ fun _ _ h => h₁.trans h)
  rintro b w₂ (⟨rfl, hwrote⟩ | ⟨rfl, h₂⟩)
  · exact hf now w₂ (hwrote.moved h₁.toUnwritten hd ha fun hrail => nomatch hst.symm.trans hrail)
  · refine Rules.Yields.mono (currentOutcome_lone d.id w₂) ?_ fun _ _ h => (h₁.trans h₂).trans h
    rintro _ w₃ ⟨h₃, status, rfl⟩
    exact ((h₁.trans h₂).trans h₃).toUnwritten

theorem callback_lone (s : Settings) (transfer : String) (w : World) :
    lone.Yields (callback s transfer) (Acted transfer w) (fun _ => Intact w) w := by
  have hstatus : (Action.retrying (policy s) (Provider.status s.provider transfer)).run.Only
      World.Looks :=
    (only_search (fun _ _ => trivial) (fun _ => trivial) _ _ _ _).retrying trivial
      (fun _ => trivial) _
  refine Rules.Yields.bind (Rules.Yields.ask (Rules.Keeps.request fun w' hw hs =>
    ⟨trivial, fun a ha => ?_⟩))
  have hlooked :=
    hw.trans (World.perform_looks (r := .depositByTransfer transfer) trivial w').intact
  cases a with
  | error e => exact hlooked
  | ok found =>
      obtain ⟨hfound, -⟩ := World.look_ok ha
      rw [hw.deposits] at hfound
      generalize (w'.perform (.depositByTransfer transfer)).2 = w₀ at hlooked
      cases found with
      | none => exact Rules.Yields.pure hlooked.toUnwritten
      | some d =>
          have hd : w.deposits.get? d.id = some d := by
            obtain ⟨id, -, hid⟩ := Option.bind_eq_some_iff.mp hfound.symm
            have hid' : w'.deposits.get? id = some d := by rw [hw.deposits]; exact hid
            rw [hs.deposits.id_eq hid']
            exact hid
          dsimp only [Rules.either]
          by_cases hst : d.status = .railInitiated
          · rw [if_neg (by simp [hst])]
            refine Rules.Yields.bind (Rules.Yields.mono (yields_intact hstatus) ?_
              fun _ _ h => hlooked.trans h)
            intro response w₁ h₁
            replace h₁ := hlooked.trans h₁
            cases response.status with
            | completed =>
                refine tell_lone h₁ hd hst fun now w₂ hmoved => ?_
                refine Rules.Yields.bind (Rules.Yields.result (Rules.Yields.mono (fund_lone s _ w₂)
                  ?_ fun _ w₃ h => ?_))
                · rintro d' w₃ ⟨cur, hid, -, hfunding, hfunded, htransfer⟩
                  -- What the funding has found stored is what has just been written.
                  have hcur := hfunding.before
                  rw [hid, hmoved.stored] at hcur
                  cases hcur
                  exact Rules.Yields.pure
                    ⟨d, d', hfound.symm, hst, hmoved.trans hfunding, rfl, htransfer⟩
                · exact Rules.Yields.pure
                    ⟨d, _, hfound.symm, hst, hmoved.trans (h.moved hmoved.stored), rfl, rfl⟩
            | failed =>
                refine tell_lone h₁ hd hst fun now w₂ hmoved => ?_
                exact Rules.Yields.pure ⟨d, _, hfound.symm, hst, hmoved, rfl, rfl⟩
            | pending => exact Rules.Yields.pure h₁.toUnwritten
            | processing => exact Rules.Yields.pure h₁.toUnwritten
          · rw [if_pos hst]
            exact Rules.Yields.pure hlooked.toUnwritten

/-! ## Onto the rail -/

/-- An order that succeeds has put the deposit on the rail, and one that fails has let it fail or
left it as it was. -/
theorem startRail_lone (s : Settings) (hd : w.deposits.get? d.id = some d)
    (hst : d.status = .created) :
    lone.Yields (startRail s d)
      (fun d' w' => Moved d d' w w' ∧ d'.status = .railInitiated ∧ d'.transfer.isSome)
      (fun _ w' => ∃ d', Moved d d' w w' ∧ d'.transfer = d.transfer ∧
        (d' = d ∨ d'.status = .failed)) w := by
  have hconvert : (Action.retrying (policy s)
      (Provider.convert s.provider (request s d))).run.Only Outside :=
    (only_convert trivial fun _ => trivial).retrying trivial (fun _ => trivial) _
  have hleft : ∀ {w'}, Unwritten w w' → ∃ d', Moved d d' w w' ∧ d'.transfer = d.transfer ∧
      (d' = d ∨ d'.status = .failed) := fun h => ⟨d, h.moved hd, rfl, .inl rfl⟩
  refine Rules.Yields.bind (Rules.Yields.result (Rules.Yields.mono (yields_unwritten hconvert)
    ?_ ?_))
  · intro response w₁ h₁
    exact advance_lone h₁ hd (fun _ => nofun) (fun _ _ => hleft)
      fun now w₂ hmoved => Rules.Yields.pure ⟨hmoved, rfl, rfl⟩
  · intro e w₁ h₁
    refine Rules.Yields.bind (Rules.Yields.mono (yields_unwritten (.lift (.request trivial))) ?_
      fun _ _ h => hleft (h₁.trans h))
    intro aborted w₂ h₂
    replace h₂ := h₁.trans h₂
    split
    · exact Rules.Yields.throw (hleft h₂)
    · refine Rules.Yields.bind (Rules.Yields.mono (mark_lone d _ w₂) ?_ fun _ _ h =>
        hleft (h₂.trans h.toUnwritten))
      rintro _ w₃ ⟨ha, ⟨now, rfl⟩, h₃⟩
      replace h₃ := h₂.trans h₃.toUnwritten
      refine Rules.Yields.bind (Rules.Yields.result (Rules.Yields.mono (update_lone _ _ w₃) ?_
        fun _ _ h => Rules.Yields.throw (hleft (h₃.trans h.toUnwritten))))
      intro _ w₄ hwrote
      have hmoved := hwrote.moved h₃ hd ha fun hrail => nomatch hst.symm.trans hrail
      exact Rules.Yields.throw ⟨_, hmoved, rfl, .inr rfl⟩

/-! ## Runs of one operation -/

variable {σ σ' : System} {op : Operation}

theorem Disturbance.intact (h : Disturbance w w') : Intact w w' :=
  ⟨⟨h.quiet.deposits, h.quiet.usages, h.claims⟩, h.quiet.fundings⟩

/-- What an operation yields while no other is in progress holds at the end of a run in which it is
the only one, whatever else has happened to the world. -/
theorem Run.lone {w₀ : World} (hs : w₀.Sound) (hbefore : Run s { world := w₀ } σ)
    (hended : ∀ a ∈ σ.running, a.ended) (hrun : Run s σ σ') {t : Action α}
    {result : Except Failure α → Result} (hinj : Function.Injective result)
    (hop : op.program s = result <$> t.run) {Q : α → World → Prop} {E : Failure → World → Prop}
    (hQ : ∀ a, lone.Stable (Q a)) (hE : ∀ e, lone.Stable (E e))
    (h : ∀ w, Intact σ.world w → lone.Yields t Q E w) {r : Except Failure α}
    (hres : σ'.running = σ.running ++ [⟨op, .done (result r)⟩]) :
    Rules.either Q E r σ'.world := by
  have hsound : ∀ x ∈ σ'.since σ, x.before.Sound := fun x hx =>
    Run.history_sound (hbefore.trans hrun) hs x
      (by rw [hrun.since]; exact List.mem_append_left _ hx)
  refine hrun.solo (R := Crossing.lone)
    (Q := fun res w => ∀ r, res = result r → Rules.either Q E r w)
    (fun res w w' hw hr r hres => ?_) (fun _ _ hd => hd.intact) hended (fun w hw => ?_) hsound hres
    r rfl
  · have hr := hr r hres
    cases r with
    | ok a => exact hQ a hw hr
    | error e => exact hE e hw hr
  · rw [hop]
    refine Rules.Keeps.map (Rules.Keeps.mono (h w hw) fun r w' hr r' heq => ?_)
    obtain rfl := hinj heq
    exact hr

end Crossing

end Causeway
