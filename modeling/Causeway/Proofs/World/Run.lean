import Causeway.Proofs.Program.Only
import Causeway.World.Run

/-!
# What a run comes to

A run goes through a sequence part by part (`run_bind`), and so does the run of a program that may
fail (`run_seq`). What every request of a program preserves holds in the end (`run_preserves`).
-/

namespace Causeway.World

variable {w w' : World} {ε α β : Type}

theorem run_bind (w : World) (p : Program α) (f : α → Program β) :
    w.run (p >>= f) =
      match w.run p with
      | (.ok a, w') => w'.run (f a)
      | (.error o, w') => (.error o, w') := by
  induction p generalizing w with
  | done a => rfl
  | call r k ih =>
      change run (.call r fun a => k a >>= f) w = _
      simp only [run]
      rcases w.perform r with ⟨a | a, w'⟩
      · rfl
      · exact ih a w'
  | crash o => rfl

theorem run_bind_of {p : Program α} {f : α → Program β} {a : α} (h : w.run p = (.ok a, w')) :
    w.run (p >>= f) = w'.run (f a) := by
  rw [run_bind, h]

theorem run_request (w : World) (r : Request) : w.run (Program.request r) = w.perform r := by
  simp only [Program.request, run]
  rcases w.perform r with ⟨a | a, w'⟩ <;> rfl

theorem run_pause (w : World) (ms : Nat) :
    w.run (Program.request (.pause ms)) =
      (.ok (w.timer.pause ms).1, { w with timer := (w.timer.pause ms).2 }) :=
  run_request w (.pause ms)

/-! ## Programs that may fail -/

variable {t : ExceptT ε Program β} {f : β → ExceptT ε Program α}

theorem run_seq {b : β} (h : w.run t.run = (.ok (.ok b), w')) :
    w.run (t >>= f).run = w'.run (f b).run :=
  run_bind_of h

theorem run_seq_of_error {e : ε} (h : w.run t.run = (.ok (.error e), w')) :
    w.run (t >>= f).run = (.ok (.error e), w') :=
  run_bind_of h

theorem run_lift {p : Program β} {b : β} (h : w.run p = (.ok b, w')) :
    w.run (liftM p : ExceptT ε Program β).run = (.ok (.ok b), w') :=
  run_bind_of h

theorem run_result {t : Action β} {r : Except Failure β} (h : w.run t.run = (.ok r, w')) :
    w.run t.result.run = (.ok (.ok r), w') :=
  run_bind_of h

/-! ## What a run preserves -/

/-- Where requests of the kind are answered and leave an assertion true, a program that makes only
such requests comes to its end and leaves it true. -/
theorem run_preserves {P : Request → Prop} {J : World → Prop}
    (hJ : ∀ w r, P r → J w → ∃ a w', w.perform r = (.ok a, w') ∧ J w') {p : Program α}
    (hp : p.Only P) (hw : J w) : ∃ a w', w.run p = (.ok a, w') ∧ J w' := by
  induction p generalizing w with
  | done a => exact ⟨a, w, rfl, hw⟩
  | call r k ih =>
      obtain ⟨a, w', hr, hw'⟩ := hJ w r hp.1 hw
      simp only [run, hr]
      exact ih a (hp.2 a) hw'
  | crash o => exact hp.elim

end Causeway.World
