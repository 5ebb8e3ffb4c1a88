import Causeway.Proofs.Program.Rules
import Causeway.Proofs.World.Changes
import Causeway.Proofs.World.Run

/-!
# A program by itself

A program that has the world to itself finds it at each request as its last request has left it, so
what it keeps to is what its run comes to (`run_keeps`). If it makes only requests that are
answered, the run comes to its end (`run_answered`).
-/

namespace Causeway

variable {K K' : World → Prop} {P : Request → Prop} {ε α β : Type} {w w' : World}

/-- Nothing happens between the requests of a program, and `K` is known of the world at each. -/
def Rules.alone (K : World → Prop) (P : Request → Prop) : Rules where
  assumes w _ := K w
  rely w w' := w' = w
  permits _ r := P r
  refl _ := rfl
  trans h h' := h'.trans h

namespace Rules

variable {Q : α → World → Prop} {F : Failure → World → Prop}

theorem Keeps.perform {r : Request} {Q : r.Answer → World → Prop} (hP : P r)
    (h : K w → ∀ a, (w.perform r).1 = .ok a → Q a (w.perform r).2) :
    (alone K P).Keeps (Program.request r) Q w := by
  refine Keeps.request fun w' hw hk => ⟨hP, ?_⟩
  obtain rfl : w' = w := hw
  exact h hk

theorem Keeps.answered {r : Request} {Q : r.Answer → World → Prop} {a : r.Answer} (hP : P r)
    (h : K w → w.perform r = (.ok a, w')) (hQ : K w → Q a w') :
    (alone K P).Keeps (Program.request r) Q w := by
  refine Keeps.perform hP fun hk b hb => ?_
  rw [h hk] at hb ⊢
  cases hb
  exact hQ hk

theorem spares_alone {J : World → Prop} {r : Request} (hP : P r)
    (h : ∀ w, K w → J w → J (w.perform r).2) : (alone K P).Spares J r := by
  intro w w' hw hrely hk
  obtain rfl : w' = w := hrely
  exact ⟨hP, h w' hk hw⟩

end Rules

namespace World

/-- `K` holds of every world that the run of a program passes. -/
def Along (K : World → Prop) : Program α → World → Prop
  | .call r k, w => K w ∧ ∀ a, (w.perform r).1 = .ok a → Along K (k a) (w.perform r).2
  | _, w => K w

variable {p : Program α} {Q : α → World → Prop}

theorem Along.and {L : World → Prop} (h : Along K p w) (h' : Along K' p w)
    (hL : ∀ w, K w → K' w → L w) : Along L p w := by
  induction p generalizing w with
  | done a => exact hL w h h'
  | call r k ih => exact ⟨hL w h.1 h'.1, fun a ha => ih a (h.2 a ha) (h'.2 a ha)⟩
  | crash o => exact hL w h h'

/-- What no request brings about held all along if it holds in the end. -/
theorem along_of_end (hK : ∀ w r, K (w.perform r).2 → K w) (h : K (w.run p).2) :
    K w ∧ Along K p w := by
  induction p generalizing w with
  | done a => exact ⟨h, h⟩
  | crash o => exact ⟨h, h⟩
  | call r k ih =>
      rw [run] at h
      split at h
      · rename_i a v ha
        have hv := ih a h
        have hw : K w := hK w r (by rw [ha]; exact hv.1)
        refine ⟨hw, hw, fun b hb => ?_⟩
        rw [ha] at hb ⊢
        cases hb
        exact hv.2
      · rename_i o v ha
        have hw : K w := hK w r (by rw [ha]; exact h)
        refine ⟨hw, hw, fun b hb => ?_⟩
        rw [ha] at hb
        cases hb

theorem run_keeps (hk : Along K p w) (h : (Rules.alone K P).Keeps p Q w) {a : α}
    (hrun : w.run p = (.ok a, w')) : K w' ∧ Q a w' := by
  induction p generalizing w with
  | done b =>
      cases hrun
      exact ⟨hk, h⟩
  | call r k ih =>
      have hnext := (h w rfl hk.1).2
      rw [run] at hrun
      split at hrun
      · rename_i b v hb
        rw [hb] at hnext
        have hk := hk.2 b (by rw [hb])
        rw [hb] at hk
        exact ih b hk (hnext b rfl) hrun
      · cases hrun
  | crash o => cases hrun

/-- What each permitted request preserves holds all along. -/
theorem along_of_keeps (hK : ∀ w r, P r → K w → K (w.perform r).2)
    (h : (Rules.alone K P).Keeps p Q w) (hw : K w) : Along K p w := by
  induction p generalizing w with
  | done a => exact hw
  | crash o => exact hw
  | call r k ih =>
      obtain ⟨hperm, hnext⟩ := h w rfl hw
      exact ⟨hw, fun a ha => ih a (hnext a ha) (hK w r hperm hw)⟩

theorem run_answered (hP : ∀ r, P r → ∀ w : World, ∃ a, (w.perform r).1 = .ok a)
    (hp : p.Only fun _ => True) (hk : Along K p w) (h : (Rules.alone K P).Keeps p Q w) :
    ∃ a w', w.run p = (.ok a, w') ∧ K w' ∧ Q a w' := by
  suffices ∃ a w', w.run p = (.ok a, w') by
    obtain ⟨a, w', hrun⟩ := this
    exact ⟨a, w', hrun, run_keeps hk h hrun⟩
  induction p generalizing w with
  | done a => exact ⟨a, w, rfl⟩
  | call r k ih =>
      obtain ⟨hperm, hnext⟩ := h w rfl hk.1
      obtain ⟨a, ha⟩ := hP r hperm w
      obtain ⟨b, w', hrun⟩ := ih a (hp.2 a) (hk.2 a ha) (hnext a ha)
      refine ⟨b, w', ?_⟩
      rw [run, show w.perform r = (.ok a, (w.perform r).2) from Prod.ext ha rfl]
      exact hrun
  | crash o => exact hp.elim

end World

end Causeway
