import Causeway.Proofs.Crossing.System
import Causeway.Proofs.Program.Only
import Causeway.Proofs.World.Changes

/-!
# Paths through a program

A path is a list of exchanges that a program makes one after another, and what is left of it then.
The path through a sequence is one through its first part, which has not ended, or one to its end
and on through the second (`Path.seq`).
-/

namespace Causeway.Crossing

open Program (Only)

variable {α β ε : Type} {P : Request → Prop} {r : Request} {xs ys : List Exchange} {x : Exchange}

/-- What a program does with an answer; an overflow ends it. -/
def goOn (k : r.Answer → Program α) : Except Overflow r.Answer → Program α
  | .ok a => k a
  | .error o => .crash o

/-- The program makes these exchanges in turn, and this is left of it. -/
inductive Path {α : Type} : Program α → List Exchange → Program α → Prop where
  | nil {p : Program α} : Path p [] p
  | cons {w : World} {r : Request} {k : r.Answer → Program α} {xs : List Exchange} {q : Program α}
      (h : Path (goOn k (w.perform r).1) xs q) : Path (.call r k) (⟨w, r⟩ :: xs) q

/-- The program waits for an answer. -/
def Waiting (p : Program α) : Prop := ∃ r k, p = .call r k

instance (p : Program α) : Decidable (Waiting p) :=
  match p with
  | .call r k => isTrue ⟨r, k, rfl⟩
  | .done _ => isFalse fun ⟨_, _, h⟩ => nomatch h
  | .crash _ => isFalse fun ⟨_, _, h⟩ => nomatch h

variable {p q : Program α}

theorem Path.append {q' : Program α} (h : Path p xs q) (h' : Path q ys q') :
    Path p (xs ++ ys) q' := by
  induction h with
  | nil => exact h'
  | cons _ ih => exact .cons (ih h')

theorem Path.snoc {w : World} {k : r.Answer → Program α} (h : Path p xs (.call r k)) :
    Path p (xs ++ [⟨w, r⟩]) (goOn k (w.perform r).1) :=
  h.append (.cons .nil)

theorem Path.of_done {a : α} (h : Path (.done a) xs q) : xs = [] ∧ q = .done a := by
  cases h
  exact ⟨rfl, rfl⟩

theorem Path.of_crash {o : Overflow} (h : Path (.crash o) xs q) : xs = [] ∧ q = .crash o := by
  cases h
  exact ⟨rfl, rfl⟩

theorem goOn_bind {k : r.Answer → Program β} {f : β → Program α} (a : Except Overflow r.Answer) :
    goOn (fun a => Program.bind (k a) f) a = Program.bind (goOn k a) f := by
  cases a <;> rfl

theorem Path.bind {p : Program β} {f : β → Program α} (h : Path (p >>= f) xs q) :
    (∃ p', Path p xs p' ∧ (∀ b, p' ≠ .done b) ∧ q = p' >>= f) ∨
      ∃ ys zs b, xs = ys ++ zs ∧ Path p ys (.done b) ∧ Path (f b) zs q := by
  generalize hb : p >>= f = p₀ at h
  induction h generalizing p with
  | @nil p₀ =>
      cases p with
      | done b => exact .inr ⟨[], [], b, rfl, .nil, hb ▸ .nil⟩
      | call r k => exact .inl ⟨.call r k, .nil, (fun _ h => nomatch h), hb.symm⟩
      | crash o => exact .inl ⟨.crash o, .nil, (fun _ h => nomatch h), hb.symm⟩
  | @cons w r k xs q hpath ih =>
      cases p with
      | done b => exact .inr ⟨[], _, b, rfl, .nil, (show f b = _ from hb) ▸ .cons hpath⟩
      | crash o => cases hb
      | call r' k' =>
          obtain ⟨rfl, hk⟩ := Program.call.inj hb
          obtain rfl := eq_of_heq hk
          rcases ih (goOn_bind _).symm with ⟨p', hp', hne, rfl⟩ | ⟨ys, zs, b, rfl, hys, hzs⟩
          · exact .inl ⟨p', .cons hp', hne, rfl⟩
          · exact .inr ⟨_ :: ys, zs, b, rfl, .cons hys, hzs⟩

variable {t : ExceptT ε Program β} {f : β → ExceptT ε Program α} {q : Program (Except ε α)}

theorem Path.seq (h : Path (t >>= f).run xs q) :
    (∃ p, Path t.run xs p ∧ (∀ r, p ≠ .done r) ∧ ∀ r, q ≠ .done r) ∨
      (∃ e, Path t.run xs (.done (.error e)) ∧ q = .done (.error e)) ∨
      ∃ ys zs b, xs = ys ++ zs ∧ Path t.run ys (.done (.ok b)) ∧ Path (f b).run zs q := by
  rcases Path.bind h with ⟨p, hp, hne, rfl⟩ | ⟨ys, zs, e | b, rfl, hys, hzs⟩
  · refine .inl ⟨p, hp, hne, fun r hr => ?_⟩
    cases p with
    | done b => exact hne b rfl
    | call r k => cases hr
    | crash o => cases hr
  · obtain ⟨rfl, rfl⟩ := Path.of_done hzs
    exact .inr (.inl ⟨e, by rwa [List.append_nil], rfl⟩)
  · exact .inr (.inr ⟨ys, zs, b, rfl, hys, hzs⟩)

theorem Path.only {p q : Program α} (h : Path p xs q) (hp : p.Only P) :
    (∀ x ∈ xs, P x.request) ∧ ((∃ o, q = .crash o) ∨ q.Only P) := by
  induction h with
  | nil => exact ⟨fun _ hx => (List.not_mem_nil hx).elim, .inr hp⟩
  | @cons w r k xs q hpath ih =>
      cases ha : (w.perform r).1 with
      | ok a =>
          rw [ha] at ih
          obtain ⟨hxs, hq⟩ := ih (hp.2 a)
          refine ⟨fun x hx => ?_, hq⟩
          rcases List.mem_cons.mp hx with rfl | hx
          · exact hp.1
          · exact hxs x hx
      | error o =>
          rw [ha] at hpath
          obtain ⟨rfl, rfl⟩ := Path.of_crash hpath
          exact ⟨by simpa using hp.1, .inl ⟨o, rfl⟩⟩

/-- What makes only requests that are answered does not overflow. -/
theorem Path.answered {p q : Program α} (h : Path p xs q)
    (hp : p.Only (World.counts · = false)) : q.Only (World.counts · = false) := by
  induction h with
  | nil => exact hp
  | @cons w r k xs q hpath ih =>
      obtain ⟨a, ha⟩ := w.perform_ok hp.1
      refine ih ?_
      rw [ha]
      exact hp.2 a

theorem waiting_of_answered {p : Program α} (hp : p.Only P) (h : ∀ a, p ≠ .done a) : Waiting p := by
  cases p with
  | done a => exact absurd rfl (h a)
  | call r k => exact ⟨r, k, rfl⟩
  | crash o => exact hp.elim

/-! ## First requests and results -/

/-- A program that makes a request first waits for its answer, or goes on with it. -/
theorem Path.of_call {k : r.Answer → Program α} {q : Program α} (h : Path (.call r k) xs q)
    (hr : World.counts r = false) :
    (xs = [] ∧ q = .call r k) ∨
      ∃ w a ys, xs = ⟨w, r⟩ :: ys ∧ (w.perform r).1 = .ok a ∧ Path (k a) ys q := by
  cases h with
  | nil => exact .inl ⟨rfl, rfl⟩
  | @cons w _ _ ys _ h =>
      obtain ⟨a, ha⟩ := w.perform_ok hr
      rw [ha] at h
      exact .inr ⟨w, a, ys, rfl, ha, h⟩

theorem Path.map {g : β → α} {p : Program β} {q : Program α} (h : Path (g <$> p) xs q) :
    ∃ p', Path p xs p' ∧ q = g <$> p' := by
  rcases Path.bind h with ⟨p', hp', -, rfl⟩ | ⟨ys, zs, b, rfl, hys, hzs⟩
  · exact ⟨p', hp', rfl⟩
  · obtain ⟨rfl, rfl⟩ := Path.of_done hzs
    exact ⟨.done b, by rwa [List.append_nil], rfl⟩

theorem map_eq_done_iff {g : β → α} {p : Program β} {a : α} :
    g <$> p = .done a ↔ ∃ b, p = .done b ∧ g b = a := by
  cases p with
  | done b =>
      constructor
      · intro h
        exact ⟨b, rfl, Program.done.inj h⟩
      · rintro ⟨_, ⟨⟩, rfl⟩
        rfl
  | call r k => exact ⟨(fun h => nomatch h), fun ⟨_, h, _⟩ => nomatch h⟩
  | crash o => exact ⟨(fun h => nomatch h), fun ⟨_, h, _⟩ => nomatch h⟩

end Causeway.Crossing
