import Causeway.Proofs.Crossing.Matching
import Causeway.Proofs.World.Alone
import Causeway.Proofs.World.Calm

/-!
# Worlds that have been reached

Operations may have been at work in a world side by side, may have been cut short by crashes and
taken up again: the deposits are sound and match the transfers all the same (`Reached.sound`,
`Reached.matched`), and so they do all along the run of one more operation (`along_consistent`).
-/

namespace Causeway.Crossing

open Deposit (Event Status)

variable {s : Settings} {α β : Type} {w w' : World}

/-- Operations have been at work since the stores were empty. A crash leaves what is stored and
loses the claims. -/
inductive Reached (s : Settings) : World → Prop where
  | empty {w : World} (hd : w.deposits = {}) (ht : w.rail.transfers = [])
      (hrace : w.script.race = none) : Reached s w
  | run {w : World} {σ : System} (h : Reached s w) (hrun : Run s { world := w } σ) :
      Reached s σ.world
  | crash {w : World} (h : Reached s w) : Reached s { w with claims := [] }

theorem Reached.sound_and_matched (h : Reached s w) : w.Sound ∧ (w.FreshIds → w.Matched) := by
  induction h with
  | empty hd ht hrace =>
      have hempty := System.matching_of_empty hd ht hrace
      exact ⟨hempty.orderly.sound, hempty.matched⟩
  | run _ hrun ih =>
      have hσ := hrun.matching (System.matching_of_idle ih.1 ih.2)
      exact ⟨hσ.orderly.sound, hσ.matched⟩
  | crash _ ih =>
      refine ⟨⟨ih.1.deposits, ih.1.race⟩, fun hfresh => ?_⟩
      obtain ⟨hindexed, hissued, hids, hreferences, hdrawn, hneeded, hlinked⟩ := ih.2 hfresh
      exact ⟨hindexed, hissued, hids, hreferences, hdrawn, hneeded, hlinked⟩

theorem Reached.sound (h : Reached s w) : w.Sound := h.sound_and_matched.1

theorem Reached.matched (h : Reached s w) (hfresh : w.FreshIds) : w.Matched :=
  h.sound_and_matched.2 hfresh

/-! ## One more operation -/

/-- The deposits are sound and match the transfers, and no identifier has been drawn twice. -/
structure Consistent (w : World) : Prop where
  sound : w.Sound
  matched : w.Matched
  fresh : w.FreshIds

theorem freshIds_of_run {p : Program α} {Q : α → World → Prop} (hs : w.Sound)
    (hp : rules.Keeps p Q w) (hfresh : (w.run p).2.FreshIds) : w.FreshIds := by
  induction p generalizing w with
  | done a => exact hfresh
  | crash o => exact hfresh
  | call r k ih =>
      obtain ⟨hperm, hnext⟩ := hp w (.refl w) hs
      have he := World.perform_effect hs hperm
      refine he.freshIds ?_
      rw [World.run] at hfresh
      split at hfresh
      · rename_i a v ha
        rw [ha] at hnext he ⊢
        exact ih a (he.sound hs) (hnext a rfl) hfresh
      · rename_i ha
        rw [ha]
        exact hfresh

/-- What keeps to the rules keeps deposits and transfers consistent all along its run. -/
theorem along_consistent {p : Program α} {Q Q' : α → World → Prop} (hs : w.Sound)
    (hm : w.FreshIds → w.Matched) (hp : rules.Keeps p Q w) (hl : linkRules.Keeps p Q' w)
    (hfresh : (w.run p).2.FreshIds) : World.Along Consistent p w := by
  induction p generalizing w with
  | done a => exact ⟨hs, hm hfresh, hfresh⟩
  | crash o => exact ⟨hs, hm hfresh, hfresh⟩
  | call r k ih =>
      have hw := freshIds_of_run hs hp hfresh
      refine ⟨⟨hs, hm hw, hw⟩, fun a ha => ?_⟩
      obtain ⟨hperm, hnext⟩ := hp w (.refl w) hs
      obtain ⟨hlinks, hlnext⟩ := hl w (.refl w) ⟨hs, hperm⟩
      have hs' := (World.perform_effect hs hperm).sound hs
      refine ih a hs' (fun hfresh' => (hm hw).perform hs hperm hlinks hfresh') (hnext a ha)
        (hlnext a ha) ?_
      rw [World.run, show w.perform r = (.ok a, (w.perform r).2) from Prod.ext ha rfl] at hfresh
      exact hfresh

/-! ## Changes that go through -/

variable {P : Request → Prop} {K : World → Prop} {d : Deposit} {e : Event} {expected : Status}

theorem mark_alone {Q : Deposit → World → Prop} {E : Failure → World → Prop} (hP : P .now)
    (ha : d.Allows e) (hQ : ∀ now, Q (d.after e now) { w with readings := w.readings + 1 }) :
    (Rules.alone K P).Yields (mark d e) Q E w := by
  refine Rules.Yields.bind (Rules.Yields.lift (Rules.Keeps.answered hP (fun _ => rfl) fun _ => ?_))
  refine Rules.Yields.ofExcept ?_
  rw [Deposit.apply_eq_ok_iff.mpr ⟨ha, rfl⟩]
  exact hQ _

/-- The store accepts what an event makes of a stored deposit, if a transfer that it reports was
made for the deposit. -/
theorem update_accepted (hw : Consistent w) (hd : w.deposits.get? d.id = some d) (ha : d.Allows e)
    (hmade : ∀ transfer, e = .railInitiated transfer → w.Made transfer d.reference)
    (now : Instant) :
    ∃ deposits, w.deposits.update (d.after e now) d.status = .ok deposits := by
  have horigin := Deposit.origin_after d e now
  have hid : (d.after e now).id = d.id := congrArg Deposit.Origin.id horigin
  have href : (d.after e now).reference = d.reference := congrArg Deposit.Origin.reference horigin
  have hcur : w.deposits.get? (d.after e now).id = some d := by rw [hid]; exact hd
  by_cases hrail : ∃ transfer, e = .railInitiated transfer
  · obtain ⟨transfer, rfl⟩ := hrail
    have hp : w.Permits (.updateDeposit (d.after (.railInitiated transfer) now) .created) :=
      ⟨d, _, now, hw.sound.recalls hd, ha, Deposit.apply_eq_ok_iff.mpr ⟨ha, rfl⟩, trivial⟩
    have hl : w.Links (.updateDeposit (d.after (.railInitiated transfer) now) .created) := by
      intro t ht
      cases ht
      exact hmade _ rfl
    exact ⟨_, Store.Deposits.update_of_unowned hcur href
      (hw.matched.otherOwner?_eq_none hw.sound hp hl hcur ha)⟩
  · refine Store.Deposits.update_of_stored hw.sound.deposits hcur href ?_
    cases e with
    | railInitiated transfer => exact absurd ⟨transfer, rfl⟩ hrail
    | _ => rfl

theorem update_alone {Q : Unit → World → Prop} {E : Failure → World → Prop}
    (hP : P (.updateDeposit d expected)) (hf : w.script.Faultless)
    (hrace : K w → w.script.race = none)
    (haccept : K w → ∃ deposits, w.deposits.update d expected = .ok deposits)
    (hQ : ∀ deposits, w.deposits.update d expected = .ok deposits → Q () { w with deposits }) :
    (Rules.alone K P).Yields (update d expected) Q E w := by
  refine Rules.Yields.ask (Rules.Keeps.perform hP fun hk a ha => ?_)
  obtain ⟨deposits, hu⟩ := haccept hk
  rw [World.updateDeposit_of_faultless hf (hrace hk) hu] at ha ⊢
  cases ha
  exact hQ deposits hu

end Causeway.Crossing
