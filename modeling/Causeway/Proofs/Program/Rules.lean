import Causeway.Proofs.Program.Only
import Causeway.World.Perform

/-!
# Programs that keep to rules

Programs take turns, so what one of them has learnt of the world must outlast whatever the others do
before its next request. `Rules` say what the others may do and which requests are permitted;
`Keeps` says that a program makes permitted requests only, and in which worlds it ends.
-/

namespace Causeway

structure Rules where
  /-- What is known of a world in which a request is answered. -/
  assumes : World → Request → Prop
  /-- What the others may do to the world between two requests. -/
  rely : World → World → Prop
  permits : World → Request → Prop
  refl : ∀ w, rely w w
  trans : ∀ {u v w}, rely u v → rely v w → rely u w

namespace Rules

variable {R : Rules} {ε α β : Type}

/-- The program makes permitted requests only, from `w` on, and ends where `Q` holds. -/
def Keeps (R : Rules) : Program α → (α → World → Prop) → World → Prop
  | .done a, Q, w => Q a w
  | .call r k, Q, w => ∀ w', R.rely w w' → R.assumes w' r →
      R.permits w' r ∧ ∀ a, (w'.perform r).1 = .ok a → Keeps R (k a) Q (w'.perform r).2
  | .crash _, _, _ => True

/-- An assertion that nothing the others do makes false. -/
def Stable (R : Rules) (J : World → Prop) : Prop := ∀ ⦃w w'⦄, R.rely w w' → J w → J w'

/-- A permitted request does to the world only what the others may do. -/
def Shared (R : Rules) : Prop :=
  ∀ ⦃w r⦄, R.assumes w r → R.permits w r → R.rely w (w.perform r).2

/-! ## Programs -/

theorem Keeps.mono {p : Program α} {Q Q' : α → World → Prop} {w : World} (h : R.Keeps p Q w)
    (hQ : ∀ a w, Q a w → Q' a w) : R.Keeps p Q' w := by
  induction p generalizing w with
  | done a => exact hQ a w h
  | call r k ih =>
      intro w' hw ha
      obtain ⟨hp, hk⟩ := h w' hw ha
      exact ⟨hp, fun a hr => ih a (hk a hr)⟩
  | crash o => trivial

/-- Whatever the others do, a program that has kept to the rules so far still keeps to them. -/
theorem Keeps.later {p : Program α} {Q : α → World → Prop} {w w' : World} (h : R.Keeps p Q w)
    (hQ : ∀ a, R.Stable (Q a)) (hw : R.rely w w') : R.Keeps p Q w' := by
  cases p with
  | done a => exact hQ a hw h
  | call r k => exact fun w'' hw' ha => h w'' (R.trans hw hw') ha
  | crash o => trivial

theorem Keeps.bind {p : Program α} {f : α → Program β} {Q : β → World → Prop} {w : World}
    (h : R.Keeps p (fun a w => R.Keeps (f a) Q w) w) : R.Keeps (p >>= f) Q w := by
  induction p generalizing w with
  | done a => exact h
  | call r k ih =>
      intro w' hw ha
      obtain ⟨hp, hk⟩ := h w' hw ha
      exact ⟨hp, fun a hr => ih a (hk a hr)⟩
  | crash o => trivial

theorem Keeps.map {p : Program α} {f : α → β} {Q : β → World → Prop} {w : World}
    (h : R.Keeps p (fun a w => Q (f a) w) w) : R.Keeps (f <$> p) Q w :=
  Keeps.bind h

theorem Keeps.request {r : Request} {Q : r.Answer → World → Prop} {w : World}
    (h : ∀ w', R.rely w w' → R.assumes w' r →
      R.permits w' r ∧ ∀ a, (w'.perform r).1 = .ok a → Q a (w'.perform r).2) :
    R.Keeps (Program.request r) Q w := h

/-- The request is permitted, and neither it nor the others make the assertion false. -/
def Spares (R : Rules) (J : World → Prop) (r : Request) : Prop :=
  ∀ ⦃w w'⦄, J w → R.rely w w' → R.assumes w' r → R.permits w' r ∧ J (w'.perform r).2

/-- What is spared by every request of a program holds in the end. -/
theorem Keeps.spared {P : Request → Prop} {J : World → Prop} (hP : ∀ r, P r → R.Spares J r)
    {p : Program α} (hp : p.Only P) {w : World} (hw : J w) : R.Keeps p (fun _ => J) w := by
  induction p generalizing w with
  | done a => exact hw
  | call r k ih =>
      intro w' hrely ha
      obtain ⟨hperm, hw'⟩ := hP r hp.1 hw hrely ha
      exact ⟨hperm, fun a _ => ih a (hp.2 a) hw'⟩
  | crash o => trivial

theorem Keeps.only {P : Request → Prop} (hP : ∀ w r, P r → R.permits w r) {p : Program α}
    (hp : p.Only P) (w : World) : R.Keeps p (fun _ _ => True) w :=
  Keeps.spared (J := fun _ => True) (fun r hr _ w' _ _ _ => ⟨hP w' r hr, trivial⟩) hp trivial

theorem Keeps.any (hR : ∀ w r, R.permits w r) (p : Program α) (w : World) :
    R.Keeps p (fun _ _ => True) w := by
  induction p generalizing w with
  | done a => trivial
  | call r k ih => exact fun w' _ _ => ⟨hR w' r, fun a _ => ih a _⟩
  | crash o => trivial

theorem Keeps.since (hR : R.Shared) {p : Program α} {Q : α → World → Prop} {w : World}
    (h : R.Keeps p Q w) : R.Keeps p (fun a w' => R.rely w w' ∧ Q a w') w := by
  suffices ∀ v, R.rely v w → R.Keeps p (fun a w' => R.rely v w' ∧ Q a w') w from this w (R.refl w)
  induction p generalizing w with
  | done a => exact fun v hv => ⟨hv, h⟩
  | call r k ih =>
      intro v hv w' hw ha
      obtain ⟨hp, hk⟩ := h w' hw ha
      exact ⟨hp, fun a hr => ih a (hk a hr) v (R.trans hv (R.trans hw (hR ha hp)))⟩
  | crash o => exact fun _ _ => trivial

theorem Keeps.seq (hR : R.Shared) {p : Program α} {f : α → Program β} {Q : β → World → Prop}
    {Q' : α → World → Prop} {w : World} (h : R.Keeps p Q' w)
    (hf : ∀ a w', R.rely w w' → Q' a w' → R.Keeps (f a) Q w') : R.Keeps (p >>= f) Q w :=
  Keeps.bind (Keeps.mono (Keeps.since hR h) fun a w' hw => hf a w' hw.1 hw.2)

/-! ## Actions and attempts -/

/-- `Q` of a value, and `E` of a failure. -/
def either (Q : α → World → Prop) (E : ε → World → Prop) : Except ε α → World → Prop
  | .ok a => Q a
  | .error e => E e

/-- The same for a program that may fail: `Q` holds of its value and `E` of its failure. -/
def Yields (R : Rules) (t : ExceptT ε Program α) (Q : α → World → Prop) (E : ε → World → Prop)
    (w : World) : Prop :=
  R.Keeps t.run (either Q E) w

variable {Q : α → World → Prop} {E : ε → World → Prop} {F : Failure → World → Prop} {w : World}

theorem Yields.mono {t : ExceptT ε Program α} {Q' : α → World → Prop} {E' : ε → World → Prop}
    (h : R.Yields t Q E w) (hQ : ∀ a w, Q a w → Q' a w) (hE : ∀ e w, E e w → E' e w) :
    R.Yields t Q' E' w := by
  refine Keeps.mono h fun r w hr => ?_
  cases r with
  | ok a => exact hQ a w hr
  | error e => exact hE e w hr

theorem Yields.pure {a : α} (h : Q a w) : R.Yields (Pure.pure a : ExceptT ε Program α) Q E w := h

theorem Yields.throw {e : ε} (h : E e w) :
    R.Yields (MonadExcept.throw e : ExceptT ε Program α) Q E w := h

theorem Yields.bind {t : ExceptT ε Program β} {f : β → ExceptT ε Program α}
    (h : R.Yields t (fun b w => R.Yields (f b) Q E w) E w) : R.Yields (t >>= f) Q E w := by
  refine Keeps.bind (Keeps.mono h fun r w hr => ?_)
  cases r with
  | ok b => exact hr
  | error e => exact hr

theorem Yields.next {t : ExceptT ε Program β} {f : β → ExceptT ε Program α}
    {Q' : β → World → Prop} (h : R.Yields t Q' E w)
    (hf : ∀ b w', Q' b w' → R.Yields (f b) Q E w') : R.Yields (t >>= f) Q E w :=
  Yields.bind (Yields.mono h hf fun _ _ h => h)

theorem Yields.since (hR : R.Shared) {t : ExceptT ε Program α} (h : R.Yields t Q E w) :
    R.Yields t (fun a w' => R.rely w w' ∧ Q a w') (fun e w' => R.rely w w' ∧ E e w') w := by
  refine Keeps.mono (Keeps.since hR h) fun r w' hr => ?_
  cases r with
  | ok a => exact hr
  | error e => exact hr

theorem Yields.seq (hR : R.Shared) {t : ExceptT ε Program β} {f : β → ExceptT ε Program α}
    {Q' : β → World → Prop} (h : R.Yields t Q' E w)
    (hf : ∀ b w', R.rely w w' → Q' b w' → R.Yields (f b) Q E w') : R.Yields (t >>= f) Q E w :=
  Yields.bind (Yields.mono (Yields.since hR h) (fun b w' hw => hf b w' hw.1 hw.2)
    fun _ _ hw => hw.2)

theorem Yields.lift {p : Program α} (h : R.Keeps p Q w) :
    R.Yields (liftM p : ExceptT ε Program α) Q E w :=
  Keeps.map h

theorem Yields.ask {p : Program (Except Failure α)} (h : R.Keeps p (either Q F) w) :
    R.Yields (Action.ask p) Q F w := h

theorem Yields.ofExcept {e : Except Failure α} (h : either Q F e w) :
    R.Yields (Action.ofExcept e) Q F w := h

theorem Yields.orNotFound {entity : Entity} {id : String} {o : Option α}
    (hQ : ∀ a, o = some a → Q a w) (hF : o = none → F (.notFound entity id) w) :
    R.Yields (Action.orNotFound entity id o) Q F w := by
  cases o with
  | some a => exact hQ a rfl
  | none => exact hF rfl

theorem Yields.result {t : Action α} {Q : Except Failure α → World → Prop}
    (h : R.Yields t (fun a => Q (.ok a)) (fun e => Q (.error e)) w) : R.Yields t.result Q F w := by
  refine Yields.lift (Keeps.mono h fun r w hr => ?_)
  cases r with
  | ok a => exact hr
  | error e => exact hr

/-- A program that takes up an action's result, failed or not. -/
theorem Yields.keeps {t : ExceptT ε Program α} {f : Except ε α → Program β}
    {Q : β → World → Prop} (h : R.Yields t (fun a w => R.Keeps (f (.ok a)) Q w)
      (fun e w => R.Keeps (f (.error e)) Q w) w) : R.Keeps (t.run >>= f) Q w := by
  refine Keeps.bind (Keeps.mono h fun r w hr => ?_)
  cases r with
  | ok a => exact hr
  | error e => exact hr

/-! ## Retrying -/

/-- How an attempt ends, if it keeps `J` until it has a value and fails as `F` says. -/
def ends (Q : α → World → Prop) (J : World → Prop) (F : Failure → Prop) :
    Retry.Ending Failure α → World → Prop
  | .value a => Q a
  | .error e => fun w => J w ∧ F e
  | .interrupted => J

/-- What is said of the failures of an attempt; an interruption is none. -/
def stops (J : World → Prop) (F : Failure → Prop) : Stop → World → Prop
  | .failure e => fun w => J w ∧ F e
  | .interrupted => J

theorem Keeps.ending {a : Attempt α} {J : World → Prop} {F : Failure → Prop}
    (h : R.Yields a Q (stops J F) w) : R.Keeps a.ending (ends Q J F) w := by
  refine Keeps.bind (Keeps.mono h fun r w hr => ?_)
  rcases r with (_ | _) | _ <;> exact hr

/-- An answer that is awaited is given, unless it is a failure or the wait is cut short. -/
theorem Yields.receive {J : World → Prop} {F : Failure → Prop} {failure : ε → Failure}
    (hpause : ∀ ms, R.Spares J (.pause ms)) {r : Reply (Except ε α)}
    (hF : ∀ e, r.answer = .error e → F (failure e)) (hw : J w) :
    R.Yields (Attempt.receive failure r) (fun a w => J w ∧ r.answer = .ok a) (stops J F) w := by
  have hdone : ∀ {w}, J w → R.Yields (Attempt.ofExcept (r.answer.mapError failure))
      (fun a w => J w ∧ r.answer = .ok a) (stops J F) w := by
    intro w hw
    cases hr : r.answer with
    | ok a => exact ⟨hw, rfl⟩
    | error e => exact ⟨hw, hF e hr⟩
  unfold Attempt.receive
  dsimp only
  split
  · refine Yields.bind (Yields.lift (Keeps.request fun w' hrely ha => ?_))
    obtain ⟨hperm, hw'⟩ := hpause _ hw hrely ha
    refine ⟨hperm, fun b _ => ?_⟩
    cases b with
    | true => exact hdone hw'
    | false => exact Yields.throw hw'
  · exact hdone hw

theorem Keeps.attemptOnce {attempt : Nat → Program (Retry.Ending Failure α)} {n : Nat}
    {last : Option Failure} {next : Failure → Program (Except Failure α)} {J : World → Prop}
    {F : Failure → Prop} (hask : R.Spares J .isAborted) (hlast : F (last.getD .cancelled))
    (hattempt : ∀ w, J w → R.Keeps (attempt n) (ends Q J F) w)
    (hnext : ∀ e w, J w → F e → R.Keeps (next e) (either Q fun e w => J w ∧ F e) w) (hw : J w) :
    R.Keeps (Retry.attemptOnce Program.host Failure.isRetryable .cancelled attempt n last next)
      (either Q fun e w => J w ∧ F e) w := by
  refine Keeps.bind (Keeps.request fun w' hww ha => ?_)
  obtain ⟨hperm, hw'⟩ := hask hw hww ha
  refine ⟨hperm, fun b hb => ?_⟩
  cases b with
  | true => exact ⟨hw', hlast⟩
  | false =>
      refine Keeps.bind (Keeps.mono (hattempt _ hw') fun r w hr => ?_)
      cases r with
      | value v => exact hr
      | interrupted => exact ⟨hr, hlast⟩
      | error e =>
          dsimp only
          split
          · exact hr
          · exact hnext e w hr.1 hr.2

/-- An assertion that the requests of the executor spare and that holds before the first attempt
holds before each, so that a rule for one attempt is a rule for all of them. They fail as one of
them does, or with a cancellation. -/
theorem Yields.attempting {p : Retry.Policy} {a : Attempt α} {J : World → Prop}
    {F : Failure → Prop} (hask : R.Spares J .isAborted) (hpause : ∀ ms, R.Spares J (.pause ms))
    (hF : F .cancelled) (ha : ∀ w, J w → R.Yields a Q (stops J F) w) (hw : J w) :
    R.Yields (Action.retrying p a) Q (fun e w => J w ∧ F e) w := by
  suffices ∀ more n last w, J w → F (last.getD .cancelled) → R.Keeps (Retry.attempts Program.host
      p.delayFor Failure.isRetryable .cancelled (fun _ => a.ending) more n last)
      (either Q fun e w => J w ∧ F e) w from this p.retries 0 none w hw hF
  have hending : ∀ w, J w → R.Keeps a.ending (ends Q J F) w := fun w hw => .ending (ha w hw)
  intro more
  induction more with
  | zero => exact fun n last w hw he => .attemptOnce hask he hending (fun _ _ hw he => ⟨hw, he⟩) hw
  | succ more ih =>
      intro n last w hw he
      refine .attemptOnce hask he hending (fun e w hw he => ?_) hw
      refine Keeps.bind (Keeps.request fun w' hww ha' => ?_)
      obtain ⟨hperm, hw'⟩ := hpause _ hw hww ha'
      refine ⟨hperm, fun b hb => ?_⟩
      cases b with
      | true => exact ih _ _ _ hw' he
      | false => exact ⟨hw', he⟩

/-- Where permitted requests do only what the others may do, an assertion that the others leave
alone is spared. -/
theorem Yields.retrying {p : Retry.Policy} {a : Attempt α} {J : World → Prop} (hR : R.Shared)
    (hperm : ∀ w, R.permits w .isAborted ∧ ∀ ms, R.permits w (.pause ms)) (hJ : R.Stable J)
    (ha : ∀ w, J w → R.Yields a Q (fun _ => J) w) (hw : J w) :
    R.Yields (Action.retrying p a) Q (fun _ => J) w := by
  have hspares : ∀ r, (∀ w, R.permits w r) → R.Spares J r := fun r hp _ w' hj hw hr =>
    ⟨hp w', hJ (hR hr (hp w')) (hJ hw hj)⟩
  refine Yields.mono (Yields.attempting (F := fun _ => True) (hspares _ fun w => (hperm w).1)
    (fun ms => hspares _ fun w => (hperm w).2 ms) trivial (fun w hw => ?_) hw) (fun _ _ h => h)
    fun _ _ h => h.1
  refine Yields.mono (ha w hw) (fun _ _ h => h) fun stop w hw => ?_
  cases stop with
  | failure e => exact ⟨hw, trivial⟩
  | interrupted => exact hw

/-! ## Actions that may fail at any time -/

/-- The action keeps to the rules, and `Q` holds of its value. -/
def Safe (R : Rules) (t : ExceptT ε Program α) (Q : α → World → Prop) (w : World) : Prop :=
  R.Yields t Q (fun _ _ => True) w

theorem Safe.mono {t : ExceptT ε Program α} {Q' : α → World → Prop} (h : R.Safe t Q w)
    (hQ : ∀ a w, Q a w → Q' a w) : R.Safe t Q' w :=
  Yields.mono h hQ fun _ _ _ => trivial

theorem Safe.bind {t : ExceptT ε Program β} {f : β → ExceptT ε Program α} {Q' : β → World → Prop}
    (h : R.Safe t Q' w) (hf : ∀ b w', Q' b w' → R.Safe (f b) Q w') : R.Safe (t >>= f) Q w :=
  Yields.bind (Yields.mono h hf fun _ _ _ => trivial)

theorem Safe.seq (hR : R.Shared) {t : ExceptT ε Program β} {f : β → ExceptT ε Program α}
    {Q' : β → World → Prop} (h : R.Safe t Q' w)
    (hf : ∀ b w', R.rely w w' → Q' b w' → R.Safe (f b) Q w') : R.Safe (t >>= f) Q w :=
  Yields.seq hR h hf

theorem Safe.pure {a : α} (h : Q a w) : R.Safe (Pure.pure a : ExceptT ε Program α) Q w :=
  Yields.pure h

theorem Safe.throw {e : ε} : R.Safe (MonadExcept.throw e : ExceptT ε Program α) Q w :=
  Yields.throw trivial

theorem Safe.result {t : Action α} (h : R.Safe t Q w) :
    R.Safe t.result (fun r w => ∀ a, r = .ok a → Q a w) w := by
  refine Yields.result (Yields.mono h ?_ ?_)
  · rintro a w ha b hb
    cases hb; exact ha
  · rintro e w _ b hb
    cases hb

theorem Safe.ofExcept (x : Except Failure α) (w : World) :
    R.Safe (Action.ofExcept x) (fun a _ => x = .ok a) w := by
  refine Yields.ofExcept ?_
  cases x with
  | ok a => exact rfl
  | error e => trivial

theorem Safe.orNotFound (entity : Entity) (id : String) (o : Option α) (w : World) :
    R.Safe (Action.orNotFound entity id o) (fun a _ => o = some a) w :=
  Yields.orNotFound (fun _ h => h) fun _ => trivial

/-- A check that stops the action. -/
theorem Safe.unless {c : Prop} [Decidable c] {e : ε} {f : Unit → ExceptT ε Program α}
    (h : ¬ c → R.Safe (f ()) Q w) :
    R.Safe (if c then (do let u ← MonadExcept.throw e; f u) else f ()) Q w := by
  split
  · exact Safe.throw
  · exact h ‹_›

theorem Keeps.free (r : Request) (h : ∀ w, R.permits w r) (w : World) :
    R.Keeps (Program.request r) (fun _ _ => True) w :=
  Keeps.request fun w' _ _ => ⟨h w', fun _ _ => trivial⟩

theorem Safe.lift (r : Request) (h : ∀ w, R.permits w r) (w : World) :
    R.Safe (liftM (Program.request r) : ExceptT ε Program r.Answer) (fun _ _ => True) w :=
  Yields.lift (Keeps.free r h w)

theorem Safe.ask {p : Program (Except Failure α)}
    (h : R.Keeps p (fun r w => ∀ a, r = .ok a → Q a w) w) : R.Safe (Action.ask p) Q w := by
  refine Keeps.mono h fun r w hr => ?_
  cases r with
  | ok a => exact hr a rfl
  | error e => trivial

theorem Safe.askFree {p : Program (Except Failure α)} (h : R.Keeps p (fun _ _ => True) w) :
    R.Safe (Action.ask p) (fun _ _ => True) w :=
  Safe.ask (Keeps.mono h fun _ _ _ _ _ => trivial)

theorem Safe.only {P : Request → Prop} (hP : ∀ w r, P r → R.permits w r)
    {t : ExceptT ε Program α} (ht : t.run.Only P) (w : World) : R.Safe t (fun _ _ => True) w := by
  refine Keeps.mono (Keeps.only hP ht w) fun r w _ => ?_
  cases r <;> trivial

theorem Safe.retrying (hR : R.Shared)
    (hperm : ∀ w, R.permits w .isAborted ∧ ∀ ms, R.permits w (.pause ms)) {p : Retry.Policy}
    {a : Attempt α} {J : World → Prop} (hJ : R.Stable J) (ha : ∀ w, J w → R.Safe a Q w)
    (hw : J w) : R.Safe (Action.retrying p a) Q w := by
  refine Yields.mono (Yields.retrying hR hperm hJ (fun w hw => ?_) hw) (fun _ _ h => h)
    fun _ _ _ => trivial
  refine Yields.mono (Yields.since hR (ha w hw)) (fun _ _ h => h.2) ?_
  exact fun _ _ h => hJ h.1 hw

/-! ### Attempts -/

theorem Safe.attempt (x : Except Failure α) (w : World) :
    R.Safe (Attempt.ofExcept x) (fun a _ => x = .ok a) w := by
  cases x with
  | ok a => exact rfl
  | error e => trivial

theorem Safe.receive (hpause : ∀ w ms, R.permits w (.pause ms)) (failure : ε → Failure)
    (r : Reply (Except ε α)) (w : World) :
    R.Safe (Attempt.receive failure r) (fun a _ => r.answer = .ok a) w := by
  have hspares : ∀ ms, R.Spares (fun _ => True) (.pause ms) := fun ms _ w' _ _ _ =>
    ⟨hpause w' ms, trivial⟩
  exact Yields.mono (Yields.receive (F := fun _ => True) hspares (fun _ _ => trivial) trivial)
    (fun _ _ h => h.2) fun _ _ _ => trivial

end Rules

end Causeway
