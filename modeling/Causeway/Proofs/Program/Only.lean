import Causeway.Program.Attempt

/-!
# Programs of one kind of request

`Program.Only` says of a program which requests it makes, whatever the answers are. Sequences,
attempts and retries of such programs are such programs.
-/

namespace Causeway.Program

/-- The program makes requests of one kind only, and no overflow of its own ends it. -/
def Only {α : Type} (P : Request → Prop) : Program α → Prop
  | .done _ => True
  | .call r k => P r ∧ ∀ a, (k a).Only P
  | .crash _ => False

variable {P P' : Request → Prop} {ε α β : Type}

theorem Only.mono (hP : ∀ r, P r → P' r) {p : Program α} (h : p.Only P) : p.Only P' := by
  induction p with
  | done a => trivial
  | call r k ih => exact ⟨hP r h.1, fun a => ih a (h.2 a)⟩
  | crash o => exact h.elim

theorem Only.bind {p : Program α} {f : α → Program β} (hp : p.Only P) (hf : ∀ a, (f a).Only P) :
    (p >>= f).Only P := by
  induction p with
  | done a => exact hf a
  | call r k ih => exact ⟨hp.1, fun a => ih a (hp.2 a)⟩
  | crash o => exact hp.elim

theorem Only.request {r : Request} (h : P r) : (Program.request r).Only P := ⟨h, fun _ => trivial⟩

variable {t : ExceptT ε Program β} {f : β → ExceptT ε Program α}

theorem Only.seq (ht : t.run.Only P) (hf : ∀ b, (f b).run.Only P) : (t >>= f).run.Only P := by
  refine Only.bind ht fun r => ?_
  cases r with
  | ok b => exact hf b
  | error e => trivial

theorem Only.lift {p : Program β} (hp : p.Only P) : (liftM p : ExceptT ε Program β).run.Only P :=
  Only.bind hp fun _ => trivial

theorem Only.result {t : Action β} (ht : t.run.Only P) : t.result.run.Only P :=
  Only.bind ht fun _ => trivial

theorem Only.ofExcept (e : Except Failure α) : (Action.ofExcept e).run.Only P := trivial

theorem Only.orNotFound (entity : Entity) (id : String) (o : Option α) :
    (Action.orNotFound entity id o).run.Only P := by
  cases o <;> trivial

/-- A check that stops the action. -/
theorem Only.unless {c : Prop} [Decidable c] {e : ε} {g : Unit → ExceptT ε Program α}
    (h : ¬ c → (g ()).run.Only P) :
    (if c then (do let u ← MonadExcept.throw e; g u) else g ()).run.Only P := by
  split
  · trivial
  · exact h ‹_›

theorem Only.receive (hp : ∀ ms, P (.pause ms)) (failure : ε → Failure)
    (r : Reply (Except ε α)) : (Attempt.receive failure r).run.Only P := by
  have hdone : (Attempt.ofExcept (r.answer.mapError failure)).run.Only P := by
    cases r.answer.mapError failure <;> trivial
  unfold Attempt.receive
  dsimp only
  split
  · refine Only.seq (.lift (Only.request (hp _))) fun b => ?_
    cases b with
    | true => exact hdone
    | false => trivial
  · exact hdone

theorem Only.attemptOnce {attempt : Nat → Program (Retry.Ending Failure α)} {n : Nat}
    {last : Option Failure} {next : Failure → Program (Except Failure α)} (hb : P .isAborted)
    (hend : (attempt n).Only P) (hnext : ∀ e, (next e).Only P) :
    (Retry.attemptOnce host Failure.isRetryable .cancelled attempt n last next).Only P := by
  refine Only.bind (.request hb) fun aborted => ?_
  split
  · trivial
  refine Only.bind hend fun e => ?_
  cases e with
  | value a => trivial
  | interrupted => trivial
  | error e =>
      dsimp only
      split
      · trivial
      · exact hnext e

theorem Only.retrying {a : Attempt α} (ha : a.run.Only P) (hb : P .isAborted)
    (hp : ∀ ms, P (.pause ms)) (p : Retry.Policy) : (Action.retrying p a).run.Only P := by
  have hend : a.ending.Only P := by
    refine Only.bind ha fun r => ?_
    rcases r with (_ | _) | _ <;> trivial
  suffices ∀ more n last, (Retry.attempts host p.delayFor Failure.isRetryable .cancelled
      (fun _ => a.ending) more n last).Only P from this _ _ _
  intro more
  induction more with
  | zero => exact fun _ _ => .attemptOnce hb hend fun _ => trivial
  | succ more ih =>
      refine fun n last => .attemptOnce hb hend fun e => ?_
      refine Only.bind (Only.request (hp _)) fun elapsed => ?_
      split
      · exact ih _ _
      · trivial

end Causeway.Program
