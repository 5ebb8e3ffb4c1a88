import Causeway.Proofs.Crossing.System

/-!
# Operations alone

`System.alone` plays one operation to its end while nothing else happens. What it reaches is reached
by a run, so a fixed run can be computed. Conversely, when only one operation has been in progress in
a run, what it keeps to by itself holds at the end (`Run.solo`), though the world may have been
disturbed in between.
-/

namespace Causeway.Crossing

variable {s : Settings} {σ σ' : System}

/-- Plays what is left of the operation that was started last; `before` are the others. -/
def System.play (before : List Activity) (op : Operation) :
    Program Result → World → List Exchange → System
  | .done a, w, history => ⟨w, before ++ [⟨op, .done a⟩], history⟩
  | .crash o, w, history => ⟨w, before ++ [⟨op, .crash o⟩], history⟩
  | .call r k, w, history =>
    match (w.perform r).1 with
    | .ok a => play before op (k a) (w.perform r).2 (⟨w, r⟩ :: history)
    | .error o => ⟨(w.perform r).2, before ++ [⟨op, .crash o⟩], ⟨w, r⟩ :: history⟩

/-- The turns that are played are reached by steps of any kind that takes in turns. -/
theorem reach_play {T : System → System → Prop}
    (hT : ∀ σ before op r k, σ.running = before ++ [⟨op, .call r k⟩] →
      T σ (σ.turn before [] op r k))
    (before : List Activity) (op : Operation) (p : Program Result) (w : World)
    (history : List Exchange) : Relation.ReflTransGen T ⟨w, before ++ [⟨op, p⟩], history⟩
      (System.play before op p w history) := by
  induction p generalizing w history with
  | done a => exact .refl
  | crash o => exact .refl
  | call r k ih =>
      have hturn : T ⟨w, before ++ [⟨op, .call r k⟩], history⟩
          (System.turn ⟨w, before ++ [⟨op, .call r k⟩], history⟩ before [] op r k) :=
        hT _ _ _ _ _ rfl
      refine .head hturn ?_
      simp only [System.play, System.turn]
      cases h : (w.perform r).1 with
      | ok a => exact ih a _ _
      | error o => exact .refl

def System.alone (σ : System) (s : Settings) (op : Operation) : System :=
  play σ.running op (op.program s) σ.world σ.history

theorem run_alone (σ : System) (op : Operation) : Run s σ (σ.alone s op) :=
  .head (.start op) (reach_play (fun _ _ _ _ _ h => .turn h) σ.running op (op.program s) σ.world
    σ.history)

theorem run_disturb {w : World} (h : Disturbance σ.world w) :
    Run s σ { σ with world := w } :=
  .single (.disturb h)

/-! ## Runs of one operation -/

def Activity.ended (a : Activity) : Bool :=
  match a.rest with
  | .call _ _ => false
  | _ => true

/-- A step is a turn of one of the operations, or leaves the history as it was. -/
theorem Step.exchange (h : Step s σ σ') : σ'.history = σ.history ∨
    ∃ before behind op r k, σ.running = before ++ ⟨op, .call r k⟩ :: behind ∧
      σ' = σ.turn before behind op r k := by
  cases h with
  | start op => exact .inl rfl
  | turn hr => exact .inr ⟨_, _, _, _, _, hr, rfl⟩
  | disturb hd => exact .inl rfl

theorem Step.history (h : Step s σ σ') : ∃ xs, σ'.history = xs ++ σ.history := by
  rcases h.exchange with h | ⟨_, _, _, _, _, _, rfl⟩
  · exact ⟨[], h⟩
  · exact ⟨[_], rfl⟩

theorem Run.history (h : Run s σ σ') : ∃ xs, σ'.history = xs ++ σ.history := by
  induction h with
  | refl => exact ⟨[], rfl⟩
  | tail _ hstep ih =>
      obtain ⟨xs, hxs⟩ := ih
      obtain ⟨ys, hys⟩ := hstep.history
      exact ⟨ys ++ xs, by rw [hys, hxs, List.append_assoc]⟩

/-- The exchanges of a run that has led from `σ` to `σ'`. -/
def System.since (σ' σ : System) : List Exchange :=
  σ'.history.take (σ'.history.length - σ.history.length)

theorem Run.since (h : Run s σ σ') : σ'.history = σ'.since σ ++ σ.history := by
  obtain ⟨xs, hxs⟩ := h.history
  have hsince : σ'.since σ = xs := by simp [System.since, hxs]
  rw [hsince, hxs]

/-- Each exchange of a run that consists of some kind of steps was the turn of an operation. -/
theorem turn_of_mem {T : System → System → Prop} (hT : ∀ σ σ', T σ σ' → Step s σ σ')
    (h : Relation.ReflTransGen T σ σ') {x : Exchange} (hx : x ∈ σ'.since σ) :
    ∃ τ before behind op k, Relation.ReflTransGen T σ τ ∧
      τ.running = before ++ ⟨op, .call x.request k⟩ :: behind ∧ τ.world = x.before := by
  have hrun : Run s σ σ' := Relation.ReflTransGen.mono hT _ _ h
  generalize hxs : σ'.since σ = xs at hx
  replace hxs : σ'.history = xs ++ σ.history := by rw [← hxs]; exact hrun.since
  clear hrun
  induction h generalizing xs with
  | refl =>
      obtain rfl : xs = [] := List.self_eq_append_left.mp hxs
      cases hx
  | @tail σ₁ σ₂ hbefore hstep ih =>
      obtain ⟨ys, hys⟩ := Run.history (s := s) (Relation.ReflTransGen.mono hT _ _ hbefore)
      rcases (hT _ _ hstep).exchange with hsame | ⟨before, behind, op, r, k, hr, rfl⟩
      · exact ih xs hx (hsame.symm.trans hxs)
      · have hsplit : xs = ⟨σ₁.world, r⟩ :: ys := by
          have hxs : ⟨σ₁.world, r⟩ :: σ₁.history = xs ++ σ.history := hxs
          rw [hys, ← List.cons_append] at hxs
          exact (List.append_cancel_right hxs).symm
        rw [hsplit, List.mem_cons] at hx
        rcases hx with rfl | hx
        · exact ⟨σ₁, before, behind, op, k, hbefore, hr, rfl⟩
        · exact ih ys hx hys

/-- How far a run has come in which one operation is in progress at most. -/
inductive Solo (R : Rules) (Q : Result → World → Prop) (first : World) (others : List Activity)
    (op : Operation) (σ : System) : Prop where
  | before (h : σ.running = others) (hw : R.rely first σ.world)
  | during (op' : Operation) (p : Program Result) (h : σ.running = others ++ [⟨op', p⟩])
      (hp : op' = op → R.Keeps p Q σ.world)
  | beyond (h : others.length + 2 ≤ σ.running.length)

variable {R : Rules} {Q : Result → World → Prop} {first : World} {others : List Activity}
  {op : Operation}

theorem Solo.step (h : Solo R Q first others op σ) (hQ : ∀ res, R.Stable (Q res))
    (hrely : ∀ w w', Disturbance w w' → R.rely w w')
    (hended : ∀ a ∈ others, a.ended) (hop : ∀ w, R.rely first w → R.Keeps (op.program s) Q w)
    (hstep : Step s σ σ')
    (hassumes : ∀ x, σ'.history = x :: σ.history → R.assumes x.before x.request) :
    Solo R Q first others op σ' := by
  cases hstep with
  | start op' =>
      cases h with
      | before h hw =>
          refine .during op' (op'.program s) (by simp [System.start, h]) ?_
          rintro rfl
          exact hop _ hw
      | during op₁ p h hp => exact .beyond (by simp [System.start, h])
      | beyond h => exact .beyond (by simp [System.start]; omega)
  | disturb hd =>
      cases h with
      | before h hw => exact .before h (R.trans hw (hrely _ _ hd))
      | during op' p h hp => exact .during op' p h fun he => (hp he).later hQ (hrely _ _ hd)
      | beyond h => exact .beyond h
  | @turn before behind op' r k hr =>
      -- What is in progress is not among the others, which have ended.
      have hcall : ⟨op', .call r k⟩ ∉ others := fun hmem => Bool.false_ne_true (hended _ hmem)
      cases h with
      | before h => exact absurd (by rw [← h, hr]; simp) hcall
      | during op₁ p h hp =>
          rcases List.eq_nil_or_concat behind with rfl | ⟨bs, a, rfl⟩
          · obtain ⟨rfl, hlast⟩ := List.append_inj' (h.symm.trans hr) rfl
            cases hlast
            refine .during _ _ rfl fun he => ?_
            obtain ⟨_, hnext⟩ := hp he σ.world (R.refl _) (hassumes ⟨σ.world, r⟩ rfl)
            cases hres : (σ.world.perform r).1 with
            | ok a => exact hnext a hres
            | error o => trivial
          · refine absurd ?_ hcall
            rw [List.concat_eq_append, ← List.cons_append, ← List.append_assoc, h] at hr
            rw [(List.append_inj' hr rfl).1]
            simp
      | beyond h =>
          refine .beyond ?_
          rw [hr] at h
          simpa [System.turn] using h

/-- If one operation has been in progress alone and has come to its end, then what it keeps to by
itself holds, whatever else has happened to the world. -/
theorem Run.solo (hrun : Run s σ σ') (hQ : ∀ res, R.Stable (Q res))
    (hrely : ∀ w w', Disturbance w w' → R.rely w w') (hended : ∀ a ∈ σ.running, a.ended)
    (hop : ∀ w, R.rely σ.world w → R.Keeps (op.program s) Q w)
    (hassumes : ∀ x ∈ σ'.since σ, R.assumes x.before x.request) {res : Result}
    (hres : σ'.running = σ.running ++ [⟨op, .done res⟩]) : Q res σ'.world := by
  have hsolo : Solo R Q σ.world σ.running op σ' := by
    generalize hxs : σ'.since σ = xs at hassumes
    replace hxs : σ'.history = xs ++ σ.history := by rw [← hxs]; exact hrun.since
    clear hres
    induction hrun generalizing xs with
    | refl => exact .before rfl (R.refl _)
    | @tail σ₁ σ₂ hrun hstep ih =>
        obtain ⟨ys, hys⟩ := Run.history hrun
        obtain ⟨zs, hzs⟩ := hstep.history
        have hsplit : xs = zs ++ ys := by
          rw [hzs, hys, ← List.append_assoc] at hxs
          exact (List.append_cancel_right hxs).symm
        have hbefore := ih ys (fun x hx => hassumes x (by simp [hsplit, hx])) hys
        refine hbefore.step hQ hrely hended hop hstep ?_
        intro x hx
        have hx : zs ++ σ₁.history = [x] ++ σ₁.history := hzs.symm.trans hx
        exact hassumes x (by simp [hsplit, List.append_cancel_right hx])
  cases hsolo with
  | before h => rw [h] at hres; simp at hres
  | during op' p h hp =>
      rw [h] at hres
      obtain ⟨_, hlast⟩ := List.append_inj' hres rfl
      cases hlast
      exact hp rfl
  | beyond h => rw [hres] at h; simp at h

/-! ## A small world -/

namespace Sample

def user : Uuid := .ofNat 1

def account : VirtualAccount := ⟨.ofNat 2, user, "rail-account", "brokerage-account", .epoch⟩

def amount : Amount :=
  ⟨{ Decimal.zero with magnitude := 120, magnitude_lt := by decide }, by decide⟩

/-- One account, a clock that stands still, and identifiers in order. -/
def world (now : Instant) : World where
  clock := fun _ => now
  ids := fun n => .ofNat (100 + n)
  accounts := ⟨[(account.id, account)]⟩

/-- The rail takes longer to answer an order than there is time. -/
def slowed : World :=
  { world .epoch with
    timer := { deadline := some 500 }
    script := { delays := [(.railCreate, 1000)] } }

def secondDay : Instant :=
  { Instant.epoch with day := 1, day_ge := by decide, day_le := by decide }

def deposit : Uuid := .ofNat 100

def transfer : String := Rail.Sandbox.idOf (.ofNat 101)

/-- A deposit has been taken in and is on the rail. -/
def begun (now : Instant) : System :=
  System.alone { world := world now } .standard
    (.initiate user account.railAccount amount "reference")

/-- Its transfer has been completed. -/
def completed (now : Instant) : System :=
  { begun now with world := ((begun now).world.completeTransfer transfer).2 }

/-- The news of that has led to its funding. -/
def paid (now : Instant) : System := (completed now).alone .standard (.callback transfer)

theorem run_begun (now : Instant) : Run .standard { world := world now } (begun now) :=
  run_alone _ _

theorem run_paid_of_begun (now : Instant) : Run .standard (begun now) (paid now) :=
  (run_disturb (.complete transfer)).trans (run_alone _ _)

theorem run_paid (now : Instant) : Run .standard { world := world now } (paid now) :=
  (run_begun now).trans (run_paid_of_begun now)

/-- The same, but the count could not be written. -/
def uncounted (now : Instant) : System :=
  System.alone { completed now with
    world := { (completed now).world with
      script := { faults := [(.usageApply, .storage (.stated "unavailable"))] } } }
    .standard (.callback transfer)

/-- A sweep has taken that up. -/
def swept (now : Instant) : System := (uncounted now).alone .standard (.sweep now)

theorem run_uncounted (now : Instant) : Run .standard { world := world now } (uncounted now) :=
  ((run_begun now).trans (run_disturb (.complete transfer))).trans
    ((run_disturb (.script _ rfl)).trans (run_alone _ _))

theorem run_swept (now : Instant) : Run .standard (uncounted now) (swept now) := run_alone _ _

end Sample

end Causeway.Crossing
