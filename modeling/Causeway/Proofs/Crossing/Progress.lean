import Causeway.Proofs.Crossing.Conduct
import Causeway.Proofs.Crossing.Solo

/-!
# Deposits only move forward

Every writer stores a whole copy that it read earlier, and all that is compared is the stage. That is
enough: a stored deposit changes its stage in allowed steps only and loses nothing of what it was
created with or of what was settled.
-/

namespace Causeway.Crossing

variable {s : Settings} {σ σ' : System} {w w' : World} {id : Uuid} {d : Deposit}

theorem effect_status (hs : w.Sound) (h : World.Effect w w') (hd : w.deposits.get? id = some d) :
    ∃ d', w'.deposits.get? id = some d' ∧ (d'.status ≠ d.status → d.status.canBecome d'.status) := by
  obtain ⟨d', hd', rfl | ⟨e, now, ha, _⟩⟩ := (h.deposits hs).2 hd
  · exact ⟨_, hd', fun hne => absurd rfl hne⟩
  · refine ⟨d', hd', fun hne => ?_⟩
    rcases Deposit.status_of_apply ha with heq | hcan
    · exact absurd heq hne
    · exact hcan

theorem later_extends (hs : w.Sound) (h : World.Later w w') (hd : w.deposits.get? id = some d) :
    ∃ d', w'.deposits.get? id = some d' ∧ d'.Extends d := by
  obtain ⟨d', hd', hl⟩ := h.deposits hd
  exact ⟨d', hd', hl.extends (hs.deposits.coherent hd)⟩

/-- In every run from an empty store, a step changes the stage of a stored deposit only to one that
may follow, and whatever is stored later extends what is stored now. -/
theorem deposits_move_forward (hempty : w.deposits = {}) (hrace : w.script.race = none)
    (hrun : Run s { world := w } σ) (hd : σ.world.deposits.get? id = some d) :
    (∀ σ', Step s σ σ' → ∃ d', σ'.world.deposits.get? id = some d' ∧
        (d'.status ≠ d.status → d.status.canBecome d'.status)) ∧
      ∀ σ', Run s σ σ' → ∃ d', σ'.world.deposits.get? id = some d' ∧ d'.Extends d := by
  have hw : w.Sound := ⟨by rw [hempty]; exact Store.Deposits.Sound.empty, hrace⟩
  have ho : σ.Orderly := hrun.orderly (System.orderly_of_idle hw)
  constructor
  · intro σ' hstep
    exact effect_status ho.sound (hstep.effect ho.sound ho.obeys) hd
  · intro σ' hrun'
    exact later_extends ho.sound (hrun'.later ho) hd

/-- A deposit that is on the rail at first is paid in later, and keeps its transfer. -/
theorem sample_moves_forward : ∃ d d',
    (Sample.begun .epoch).world.deposits.get? Sample.deposit = some d ∧
      d.status = .railInitiated ∧
      (Sample.paid .epoch).world.deposits.get? Sample.deposit = some d' ∧
      d'.status = .brokerFunded ∧ d'.Extends d := by
  have hbegun : ((Sample.begun .epoch).world.deposits.get? Sample.deposit).map (·.status) =
      some .railInitiated := by decide
  have hpaid : ((Sample.paid .epoch).world.deposits.get? Sample.deposit).map (·.status) =
      some .brokerFunded := by decide
  obtain ⟨d, hd, hst⟩ := Option.map_eq_some_iff.mp hbegun
  obtain ⟨d', hd', hst'⟩ := Option.map_eq_some_iff.mp hpaid
  obtain ⟨d'', hd'', hext⟩ := (deposits_move_forward (w := Sample.world .epoch) rfl rfl
    (Sample.run_begun .epoch) hd).2 _ (Sample.run_paid_of_begun .epoch)
  rw [hd'] at hd''
  cases hd''
  exact ⟨d, d', hd, hst, hd', hst', hext⟩

end Causeway.Crossing
