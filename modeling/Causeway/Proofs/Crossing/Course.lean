import Causeway.Proofs.Crossing.Onward
import Causeway.Proofs.Crossing.Path
import Causeway.Proofs.World.Changes

/-!
# The course of a callback

A callback looks its deposit up, asks the rail for as long as the deposit waits there, and then makes
one write that names the stage it read. Whether that write goes through decides what it is left to
do (`Course`): pay the deposit in, or tell the stage that another writer has brought it to.
-/

namespace Causeway.Crossing

open Deposit (Event Status)
open Program (Only)

variable {s : Settings} {transfer : String} {d : Deposit} {xs : List Exchange}
  {q : Program (Except Failure CallbackOutcome)}

/-- What a callback asks for before it writes. -/
def Asking : Request → Prop
  | .now | .listTransfers _ _ | .isAborted | .pause _ => True
  | _ => False

def Advanced (q : Program (Except Failure CallbackOutcome)) : Prop :=
  ∃ source target, q = .done (.ok (.advanced source target))

/-- What is left of a callback that reads its deposit again, after the exchanges it has made to do
so. -/
inductive Rereads (id : Uuid) : List Exchange → Program (Except Failure CallbackOutcome) → Prop where
  | waiting (k : (Request.depositById id).Answer → Program (Except Failure CallbackOutcome)) :
      Rereads id [] (.call (.depositById id) k)
  | failed {w : World} {e : Failure} (h : ∀ d, (w.perform (.depositById id)).1 ≠ .ok (.ok (some d))) :
      Rereads id [⟨w, .depositById id⟩] (.done (.error e))
  | told {w : World} {d : Deposit} (h : (w.perform (.depositById id)).1 = .ok (.ok (some d))) :
      Rereads id [⟨w, .depositById id⟩] (.done (.ok (.unchanged d.status)))

/-- The exchanges of a callback that has read `d` on the rail, and what is left of it. -/
inductive Pursues (d : Deposit) :
    List Exchange → Program (Except Failure CallbackOutcome) → Prop where
  | asking {ys : List Exchange} {q : Program (Except Failure CallbackOutcome)}
      (hys : ∀ y ∈ ys, Asking y.request) (hq : ¬ Advanced q) : Pursues d ys q
  | refused {ys : List Exchange} {w : World} {d' : Deposit} {event : Event} {now : Instant}
      {e : Failure} (hys : ∀ y ∈ ys, Asking y.request) (hd' : d.apply event now = .ok d')
      (hw : (w.perform (.updateDeposit d' .railInitiated)).1 = .ok (.error e))
      (he : ∀ id, e ≠ .stale id) :
      Pursues d (ys ++ [⟨w, .updateDeposit d' .railInitiated⟩]) (.done (.error e))
  | lost {ys zs : List Exchange} {w : World} {d' : Deposit} {event : Event} {now : Instant}
      {id : String} {q : Program (Except Failure CallbackOutcome)}
      (hys : ∀ y ∈ ys, Asking y.request) (hd' : d.apply event now = .ok d')
      (hw : (w.perform (.updateDeposit d' .railInitiated)).1 = .ok (.error (.stale id)))
      (hzs : Rereads d.id zs q) :
      Pursues d (ys ++ ⟨w, .updateDeposit d' .railInitiated⟩ :: zs) q
  | won {ys zs : List Exchange} {w : World} {d' : Deposit} {event : Event} {now : Instant}
      {q : Program (Except Failure CallbackOutcome)} (hys : ∀ y ∈ ys, Asking y.request)
      (hd' : d.apply event now = .ok d')
      (hw : (w.perform (.updateDeposit d' .railInitiated)).1 = .ok (.ok ()))
      (hzs : ∀ z ∈ zs, Paying z.request) :
      Pursues d (ys ++ ⟨w, .updateDeposit d' .railInitiated⟩ :: zs) q

/-- The exchanges of a callback that has looked its deposit up, and what is left of it. -/
inductive Course (transfer : String) :
    List Exchange → Program (Except Failure CallbackOutcome) → Prop where
  | failed {w : World} {e : Failure}
      (h : (w.perform (.depositByTransfer transfer)).1 = .ok (.error e)) :
      Course transfer [⟨w, .depositByTransfer transfer⟩] (.done (.error e))
  | unmatched {w : World} (h : (w.perform (.depositByTransfer transfer)).1 = .ok (.ok none)) :
      Course transfer [⟨w, .depositByTransfer transfer⟩] (.done (.ok .unmatched))
  | settled {w : World} {d : Deposit}
      (h : (w.perform (.depositByTransfer transfer)).1 = .ok (.ok (some d)))
      (hd : d.status ≠ .railInitiated) :
      Course transfer [⟨w, .depositByTransfer transfer⟩] (.done (.ok (.unchanged d.status)))
  | pursues {w : World} {d : Deposit} {ys : List Exchange}
      {q : Program (Except Failure CallbackOutcome)}
      (h : (w.perform (.depositByTransfer transfer)).1 = .ok (.ok (some d)))
      (hd : d.status = .railInitiated) (hys : Pursues d ys q) :
      Course transfer (⟨w, .depositByTransfer transfer⟩ :: ys) q

/-! ## Parts of the course -/

theorem not_advanced_of_waiting (h : ∀ r, q ≠ .done r) : ¬ Advanced q := by
  rintro ⟨source, target, rfl⟩
  exact h _ rfl

theorem not_advanced_of_error {e : Failure} (h : q = .done (.error e)) : ¬ Advanced q := by
  rintro ⟨source, target, rfl⟩
  cases h

/-- What a write tells: whether it went through or another writer was first. -/
def stored : Except Failure Unit → Except Failure Bool
  | .ok () => .ok true
  | .error (.stale _) => .ok false
  | .error e => .error e

theorem persist_path {expected : Status} {p : Program (Except Failure Bool)}
    (h : Path (persist d expected).run xs p) :
    (xs = [] ∧ ∀ r, p ≠ .done r) ∨ ∃ (w : World) (a : Except Failure Unit),
      xs = [⟨w, .updateDeposit d expected⟩] ∧
        (w.perform (.updateDeposit d expected)).1 = .ok a ∧ p = .done (stored a) := by
  cases h with
  | nil => exact .inl ⟨rfl, fun _ h => nomatch h⟩
  | @cons w _ _ _ _ h =>
      obtain ⟨a, ha⟩ := w.perform_ok (r := .updateDeposit d expected) rfl
      rw [ha] at h
      refine .inr ⟨w, a, ?_⟩
      rcases a with e | ⟨⟩
      · cases e <;> obtain ⟨rfl, rfl⟩ := Path.of_done h <;> exact ⟨rfl, ha, rfl⟩
      · obtain ⟨rfl, rfl⟩ := Path.of_done h
        exact ⟨rfl, ha, rfl⟩

theorem currentOutcome_path {id : Uuid} (h : Path (currentOutcome id).run xs q) :
    Rereads id xs q := by
  cases h with
  | nil => exact .waiting _
  | @cons w _ _ _ _ h =>
      obtain ⟨a, ha⟩ := w.perform_ok (r := .depositById id) rfl
      rw [ha] at h
      rcases a with e | _ | d
      · obtain ⟨rfl, rfl⟩ := Path.of_done h
        exact .failed (by rw [ha]; simp)
      · obtain ⟨rfl, rfl⟩ := Path.of_done h
        exact .failed (by rw [ha]; simp)
      · obtain ⟨rfl, rfl⟩ := Path.of_done h
        exact .told ha

theorem mark_path {e : Event} {p : Program (Except Failure Deposit)}
    (h : Path (mark d e).run xs p) :
    (∀ x ∈ xs, Asking x.request) ∧ ∀ d', p = .done (.ok d') → ∃ now, d.apply e now = .ok d' := by
  cases h with
  | nil => exact ⟨fun _ hx => (List.not_mem_nil hx).elim, fun _ h => nomatch h⟩
  | @cons w _ _ _ _ h =>
      obtain ⟨now, hnow⟩ := w.perform_ok (r := .now) rfl
      rw [hnow] at h
      obtain ⟨rfl, rfl⟩ := Path.of_done h
      exact ⟨by simp [Asking], fun d' hd' => ⟨now, by injection hd'⟩⟩

/-- The write of a callback and what comes of it. -/
theorem write_path {e : Event} {f : Deposit → Action CallbackOutcome}
    (hst : d.status = .railInitiated)
    (hf : ∀ d' now, d.apply e now = .ok d' → (f d').run.Only Paying)
    (h : Path (mark d e >>= fun d' => persist d' d.status >>= fun moved =>
      if (!moved) = true then currentOutcome d.id else f d').run xs q) : Pursues d xs q := by
  rcases Path.seq h with ⟨p, hp, -, hq⟩ | ⟨e, hp, hq⟩ | ⟨ys, zs, d', rfl, hys, hzs⟩
  · exact .asking (mark_path hp).1 (not_advanced_of_waiting hq)
  · exact .asking (mark_path hp).1 (not_advanced_of_error hq)
  obtain ⟨hasking, hmark⟩ := mark_path hys
  obtain ⟨now, hd'⟩ := hmark d' rfl
  rw [hst] at hzs
  rcases Path.seq hzs with ⟨p, hp, hne, hq⟩ | ⟨e, hp, rfl⟩ | ⟨us, vs, moved, rfl, hus, hvs⟩
  · rcases persist_path hp with ⟨rfl, -⟩ | ⟨w, a, -, -, rfl⟩
    · rw [List.append_nil]
      exact .asking hasking (not_advanced_of_waiting hq)
    · exact absurd rfl (hne _)
  · rcases persist_path hp with ⟨-, hne⟩ | ⟨w, a, rfl, ha, he⟩
    · exact absurd rfl (hne _)
    · rcases a with e' | ⟨⟩
      · have hstale : (∀ id, e' ≠ .stale id) ∧ e = e' := by
          cases e' <;> simp_all [stored]
        rw [hstale.2]
        exact .refused hasking hd' ha hstale.1
      · cases he
  · rcases persist_path hus with ⟨-, hne⟩ | ⟨w, a, rfl, ha, he⟩
    · exact absurd rfl (hne _)
    · rcases a with e' | ⟨⟩
      · have hstale : ∃ id, e' = .stale id ∧ moved = false := by
          cases e' <;> simp_all [stored]
        obtain ⟨id, rfl, rfl⟩ := hstale
        exact .lost hasking hd' ha (currentOutcome_path hvs)
      · cases he
        exact .won hasking hd' ha ((Path.only hvs (hf d' now hd')).1)

theorem status_asks (p : ProviderSettings) (transfer : String) :
    (Action.retrying (policy s) (Provider.status p transfer)).run.Only Asking := by
  have hstatus : (Provider.status p transfer).run.Only Asking :=
    only_search (fun _ _ => trivial) (fun _ => trivial) _ _ _ _
  exact hstatus.retrying trivial (fun _ => trivial) _

theorem Pursues.after {ys : List Exchange} (h : Pursues d xs q)
    (hys : ∀ y ∈ ys, Asking y.request) : Pursues d (ys ++ xs) q := by
  have hboth : ∀ {zs : List Exchange}, (∀ z ∈ zs, Asking z.request) →
      ∀ y ∈ ys ++ zs, Asking y.request := fun hzs y hy =>
    (List.mem_append.mp hy).elim (hys y) (hzs y)
  cases h with
  | asking hzs hq => exact .asking (hboth hzs) hq
  | refused hzs hd' hw he => rw [← List.append_assoc]; exact .refused (hboth hzs) hd' hw he
  | lost hzs hd' hw h => rw [← List.append_assoc]; exact .lost (hboth hzs) hd' hw h
  | won hzs hd' hw h => rw [← List.append_assoc]; exact .won (hboth hzs) hd' hw h

theorem Pursues.of_unchanged (h : Path (.done (.ok (.unchanged d.status))) xs q) :
    Pursues d xs q := by
  obtain ⟨rfl, rfl⟩ := Path.of_done h
  refine .asking (by simp) ?_
  rintro ⟨source, target, h⟩
  cases h

theorem Pursues.not_looked_up (h : Pursues d xs q) {x : Exchange} (hx : x ∈ xs) (t : String) :
    x.request ≠ .depositByTransfer t := by
  have hasking : ∀ {y : Exchange}, Asking y.request → y.request ≠ .depositByTransfer t :=
    fun hy he => by rw [he] at hy; exact hy
  have hpaying : ∀ {y : Exchange}, Paying y.request → y.request ≠ .depositByTransfer t :=
    fun hy he => by rw [he] at hy; exact hy
  cases h with
  | asking hys hq => exact hasking (hys x hx)
  | refused hys hd' hw he =>
      rcases List.mem_append.mp hx with hx | hx
      · exact hasking (hys x hx)
      · rw [List.mem_singleton.mp hx]
        exact Request.noConfusion
  | lost hys hd' hw hzs =>
      rcases List.mem_append.mp hx with hx | hx
      · exact hasking (hys x hx)
      · rcases List.mem_cons.mp hx with rfl | hx
        · exact Request.noConfusion
        · cases hzs with
          | waiting k => exact (List.not_mem_nil hx).elim
          | failed h | told h =>
              rw [List.mem_singleton.mp hx]
              exact Request.noConfusion
  | won hys hd' hw hzs =>
      rcases List.mem_append.mp hx with hx | hx
      · exact hasking (hys x hx)
      · rcases List.mem_cons.mp hx with rfl | hx
        · exact Request.noConfusion
        · exact hpaying (hzs x hx)

/-- A callback looks its deposit up once. -/
theorem Course.tail {x : Exchange} (h : Course transfer (x :: xs) q) :
    ∀ y ∈ xs, ∀ t, y.request ≠ .depositByTransfer t := by
  intro y hy t
  cases h with
  | failed h | unmatched h | settled h hd => exact (List.not_mem_nil hy).elim
  | pursues h hd hys => exact hys.not_looked_up hy t

/-- Every way that a callback can go, as far as it has gone. -/
theorem callback_course (h : Path (callback s transfer).run xs q) (hxs : xs ≠ []) :
    Course transfer xs q := by
  cases h with
  | nil => exact absurd rfl hxs
  | @cons w _ _ xs q h =>
      obtain ⟨a, ha⟩ := w.perform_ok (r := .depositByTransfer transfer) rfl
      rw [ha] at h
      rcases a with e | _ | d
      · obtain ⟨rfl, rfl⟩ := Path.of_done h
        exact .failed ha
      · obtain ⟨rfl, rfl⟩ := Path.of_done h
        exact .unmatched ha
      · change Path (ExceptT.run (if d.status ≠ .railInitiated then pure (.unchanged d.status)
          else Action.retrying (policy s) (Provider.status s.provider transfer) >>= _)) xs q at h
        split at h
        · obtain ⟨rfl, rfl⟩ := Path.of_done h
          exact .settled ha ‹_›
        · rename_i hst
          have hst : d.status = .railInitiated := not_not.mp hst
          refine .pursues ha hst ?_
          rcases Path.seq h with ⟨p, hp, -, hq⟩ | ⟨e, hp, hq⟩ | ⟨ys, zs, response, rfl, hys, hzs⟩
          · exact .asking (hp.only (status_asks _ _)).1 (not_advanced_of_waiting hq)
          · exact .asking (hp.only (status_asks _ _)).1 (not_advanced_of_error hq)
          · have hasking := (hys.only (status_asks _ _)).1
            split at hzs
            · refine (write_path hst (fun d' _ _ => ?_) hzs).after hasking
              exact (fund_pays s d').result.seq fun r => by cases r <;> trivial
            · refine (write_path hst ?_ hzs).after hasking
              exact fun _ _ _ => trivial
            · exact (Pursues.of_unchanged hzs).after hasking
            · exact (Pursues.of_unchanged hzs).after hasking

end Causeway.Crossing
