import Causeway.Proofs.Store.Deposits
import Causeway.Proofs.World.Changes

/-!
# Requests that spare what is stored

A world is spared if nobody has called the rail or the brokerage since and the stored deposits are
where they were, with new ones at their beginning at most. A request that writes a deposit spares
the world if what it writes stands where the stored one does (`Harmless.spared`), even if another
writer goes first, since nothing moves a deposit that has come to its end
(`raceSteps_of_terminal`).
-/

namespace Causeway

namespace Deposit

/-- How far a deposit has come and what its stages have left behind. -/
structure Standing where
  status : Status
  transfer : Option String
  destinationAmount : Option Decimal
  fundingRef : Option String
  failureReason : Option String
deriving DecidableEq

def standing (d : Deposit) : Standing :=
  ⟨d.status, d.transfer, d.destinationAmount, d.fundingRef, d.failureReason⟩

variable {d d' : Deposit} {now : Instant}

theorem status_of_standing (h : d'.standing = d.standing) : d'.status = d.status :=
  congrArg Standing.status h

theorem standing_of_usageRecorded (h : d.apply .usageRecorded now = .ok d') :
    d'.standing = d.standing := by
  obtain ⟨-, rfl⟩ := apply_eq_ok_iff.mp h
  rfl

end Deposit

namespace World

variable {w w' w'' : World} {d : Deposit} {expected : Deposit.Status} {id : Uuid} {r : Request}

/-! ## Writers that go first -/

theorem raceStep_of_terminal {s : Store.Deposits} (hd : s.get? id = some d)
    (hend : d.status.isTerminal) (now : Instant) (stage : Deposit.Status) :
    raceStep id now s stage = .ok s := by
  have hno := (Deposit.Status.isTerminal_iff _).mp hend
  have hrefused : ∃ e, d.apply (raceEvent stage) now = .error e := by
    cases stage <;> exact ⟨_, by simp [raceEvent, Deposit.apply, Deposit.moveTo, hno]; rfl⟩
  obtain ⟨e, he⟩ := hrefused
  simp only [raceStep, hd, he]

theorem raceSteps_of_terminal {s : Store.Deposits} (hd : s.get? id = some d)
    (hend : d.status.isTerminal) (now : Instant) (stages : List Deposit.Status) :
    raceSteps id now stages s = (.ok (), s) := by
  induction stages with
  | nil => rfl
  | cons stage stages ih => simp only [raceSteps, raceStep_of_terminal hd hend, ih]

theorem race_of_terminal (hd : w.deposits.get? id = some d) (hend : d.status.isTerminal) :
    (w.race id).1 = .ok () ∧ (w.race id).2.deposits = w.deposits := by
  unfold race
  split
  · exact ⟨rfl, rfl⟩
  · simp only [readClock, raceSteps_of_terminal hd hend, and_self]

/-- An update of a deposit that has come to its end is refused or is all that happens. -/
theorem updateDeposit_of_terminal {cur : Deposit} (hd : w.deposits.get? d.id = some cur)
    (hend : cur.status.isTerminal) (expected : Deposit.Status) :
    (w.perform (.updateDeposit d expected)).2.deposits = w.deposits ∨
      w.deposits.update d expected = .ok (w.perform (.updateDeposit d expected)).2.deposits := by
  simp only [perform, contestedUpdate]
  rcases guarded_cases w .depositsUpdate _ with ⟨e, v, h, hq⟩ | ⟨-, h⟩
  · rw [h]
    exact .inl hq.deposits
  rw [h]
  split
  · exact .inl rfl
  · obtain ⟨hok, hsame⟩ := race_of_terminal hd hend
    split
    · rename_i v hrace
      rw [hrace] at hsame
      rw [← hsame]
      unfold updateDeposit
      split
      · rename_i deposits hu
        exact .inr hu
      · exact .inl rfl
    · rename_i e v hrace
      rw [hrace] at hok
      cases hok

/-! ## Deposits under their keys -/

theorem raceStep_keyed {s s' : Store.Deposits} {now : Instant} {stage : Deposit.Status}
    (hs : s.Keyed) (h : raceStep id now s stage = .ok s') : s'.Keyed := by
  unfold raceStep at h
  split at h
  · cases h
    exact hs
  · split at h
    · cases h
      exact hs
    · exact hs.update h

theorem raceSteps_keyed {s : Store.Deposits} (hs : s.Keyed) (now : Instant)
    (stages : List Deposit.Status) : (raceSteps id now stages s).2.Keyed := by
  induction stages generalizing s with
  | nil => exact hs
  | cons stage stages ih =>
      unfold raceSteps
      split
      · exact ih (raceStep_keyed hs ‹_›)
      · exact hs

theorem race_keyed (h : w.deposits.Keyed) (id : Uuid) : (w.race id).2.deposits.Keyed := by
  unfold race
  split
  · exact h
  · exact raceSteps_keyed h _ _

theorem updateDeposit_keyed (h : w.deposits.Keyed) :
    (w.updateDeposit d expected).2.deposits.Keyed := by
  unfold updateDeposit
  split
  · exact h.update ‹_›
  · exact h

/-- No request stores a deposit under another's id, and none stores one twice. -/
theorem perform_keyed (h : w.deposits.Keyed) (r : Request) : (w.perform r).2.deposits.Keyed := by
  cases r with
  | createDeposit d =>
      rcases w.createDeposit_cases d with ⟨e, v, he, hq⟩ | ⟨deposits, hc, hw⟩
      · rw [he, hq.deposits]
        exact h
      · rw [hw]
        exact h.create hc
  | updateDeposit d expected =>
      simp only [perform, contestedUpdate]
      rcases guarded_cases w .depositsUpdate _ with ⟨e, v, he, hq⟩ | ⟨-, he⟩
      · rw [he, hq.deposits]
        exact h
      rw [he]
      have hrace := race_keyed h d.id
      split
      · exact h
      · split
        · rename_i v hv
          rw [hv] at hrace
          exact updateDeposit_keyed hrace
        · rename_i hv
          rw [hv] at hrace
          exact hrace
  | _ =>
      rw [perform_deposits w (by simp) (by simp)]
      exact h

/-! ## Worlds that are spared -/

/-- Nobody has called the rail or the brokerage, each stored deposit stands where it stood, and each
new one at its beginning. -/
structure Spared (w w' : World) : Prop where
  outbound : w'.outbound = w.outbound
  kept : ∀ ⦃id d⦄, w.deposits.get? id = some d →
    ∃ d', w'.deposits.get? id = some d' ∧ d'.standing = d.standing
  begun : ∀ ⦃id d⦄, w.deposits.get? id = none → w'.deposits.get? id = some d →
    d.status = .created

theorem Spared.of_eq (ho : w'.outbound = w.outbound) (hd : w'.deposits = w.deposits) :
    Spared w w' := by
  refine ⟨ho, fun id d h => ⟨d, by rw [hd]; exact h, rfl⟩, fun id d hnone h => ?_⟩
  rw [hd, hnone] at h
  cases h

theorem Spared.refl (w : World) : Spared w w := .of_eq rfl rfl

theorem Spared.trans (h : Spared w w') (h' : Spared w' w'') : Spared w w'' where
  outbound := h'.outbound.trans h.outbound
  kept id d hd := by
    obtain ⟨d', hd', hst⟩ := h.kept hd
    obtain ⟨d'', hd'', hst'⟩ := h'.kept hd'
    exact ⟨d'', hd'', hst'.trans hst⟩
  begun id d hnone hd := by
    cases hmid : w'.deposits.get? id with
    | none => exact h'.begun hmid hd
    | some e =>
        obtain ⟨d', hd', hst⟩ := h'.kept hmid
        obtain rfl : d' = d := Option.some.inj (hd'.symm.trans hd)
        exact (Deposit.status_of_standing hst).trans (h.begun hnone hmid)

/-- What is stored under the deposit's id stands where the deposit does. -/
def Mirrors (w : World) (d : Deposit) : Prop :=
  ∃ cur, w.deposits.get? d.id = some cur ∧ cur.standing = d.standing

theorem Mirrors.spared (h : w.Mirrors d) (hw : Spared w w') : w'.Mirrors d := by
  obtain ⟨cur, hcur, hst⟩ := h
  obtain ⟨cur', hcur', hst'⟩ := hw.kept hcur
  exact ⟨cur', hcur', hst'.trans hst⟩

/-- The requests that call nobody, begin deposits at most, and write nothing but the times of funded
ones. -/
def Harmless (w : World) : Request → Prop
  | .createTransfer _ | .listTransfers _ _ | .fundAccount _ _ _ => False
  | .createDeposit d => d.status = .created
  | .updateDeposit d _ => w.Mirrors d ∧ d.status = .brokerFunded
  | _ => True

theorem spared_create {deposits : Store.Deposits} (hst : d.status = .created)
    (hc : w.deposits.create d = .ok deposits) : Spared w { w with deposits } := by
  obtain ⟨hnew, -⟩ := Store.Deposits.create_eq_ok hc
  refine ⟨rfl, fun id e he => ⟨e, ?_, rfl⟩, fun id e hnone he => ?_⟩
  · have hne : d.id ≠ id := by
      rintro rfl
      rw [hnew] at he
      cases he
    exact (Store.Deposits.get?_create hc).trans ((if_neg hne).trans he)
  · replace he := (Store.Deposits.get?_create hc).symm.trans he
    split at he
    · cases he
      exact hst
    · rw [hnone] at he
      cases he

theorem spared_update (hm : w.Mirrors d) (ho : w'.outbound = w.outbound)
    (hu : w.deposits.update d expected = .ok w'.deposits) : Spared w w' := by
  obtain ⟨cur, hcur, hst⟩ := hm
  refine ⟨ho, fun id e he => ?_, fun id e hnone he => ?_⟩
  · rw [Store.Deposits.get?_update hu]
    split
    · rename_i hid
      subst hid
      rw [hcur] at he
      cases he
      exact ⟨d, rfl, hst.symm⟩
    · exact ⟨e, he, rfl⟩
  · rw [Store.Deposits.get?_update hu] at he
    split at he
    · rename_i hid
      subst hid
      rw [hcur] at hnone
      cases hnone
    · rw [hnone] at he
      cases he

theorem Harmless.spared (h : w.Harmless r) : Spared w (w.perform r).2 := by
  cases r with
  | createTransfer _ | listTransfers _ _ | fundAccount _ _ _ => exact h.elim
  | createDeposit d =>
      have ho : (w.perform (.createDeposit d)).2.outbound = w.outbound := perform_outbound w rfl
      rcases w.createDeposit_cases d with ⟨e, v, he, hq⟩ | ⟨deposits, hc, hw⟩
      · refine .of_eq ho ?_
        rw [he]
        exact hq.deposits
      · rw [hw]
        exact spared_create h hc
  | updateDeposit d expected =>
      obtain ⟨hm, hfunded⟩ := h
      have ho : (w.perform (.updateDeposit d expected)).2.outbound = w.outbound :=
        perform_outbound w rfl
      obtain ⟨cur, hcur, hst⟩ := hm
      have hend : cur.status.isTerminal := by
        rw [Deposit.status_of_standing hst, hfunded]
        rfl
      rcases updateDeposit_of_terminal hcur hend expected with hsame | hu
      · exact .of_eq ho hsame
      · exact spared_update ⟨cur, hcur, hst⟩ ho hu
  | _ => exact .of_eq (perform_outbound w rfl) (perform_deposits w (by simp) (by simp))

end World

end Causeway
